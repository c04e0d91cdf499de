import ClankerNPU.EagleRx.Fast
import ClankerNPU.EagleRx.Queues
import ClankerNPU.Hostadpt.Chain

/-! # Segments stay in their arrays

    `eagle_rxdmad_handle` collects the segments of a chained frame in two
    arrays of `EAGLE_MSEG_MAX` entries, `eagle_mseg_drain` takes them out
    of the queue into two more. Here every access is checked against the
    arrays; the descriptors, the queues and all memory but the collection
    change as they like between two calls, and a queue entry between two
    reads. -/

namespace ClankerNPU.EagleRx.Fast

open Hostadpt (MsegWords HostSeg RxBufs msegNext)

variable {T : Type*}

/-! ## The collection -/

/-- `eagle_seg_len[i] = …; eagle_seg_bufid[i] = …` -/
def RxdChain.store? (c : RxdChain) (i : ℕ) (bufId len : BitVec 16) : Option RxdChain :=
  if i < eagleMsegMax then
    some { c with bufid := Function.update c.bufid i bufId, len := Function.update c.len i len }
  else none

/-- `eagle_seg_bufid[i]` -/
def RxdChain.bufid? (c : RxdChain) (i : ℕ) : Option (BitVec 16) :=
  if i < eagleMsegMax then some (c.bufid i) else none

/-- `eagle_seg_len[i]` -/
def RxdChain.len? (c : RxdChain) (i : ℕ) : Option (BitVec 16) :=
  if i < eagleMsegMax then some (c.len i) else none

/-- The loop that queues the segments of a complete chain. -/
def emitSegs? (count : ℕ) : ℕ → RxdState T → Option (RxdState T)
  | 0, s => some s
  | left + 1, s =>
    let i := count - (left + 1)
    (s.chain.bufid? i).bind fun bufId => (s.chain.len? i).bind fun len =>
      let r := eaglePktEnqueue s (bufId.setWidth 32) (s.chain.seglen.setWidth 16) 0 0 1
        (segFlags count i) len
      emitSegs? count left (if r.2 then r.1.bufIdReturn bufId else r.1)

/-- A descriptor of a chained frame: the state and whether the chain goes
    on. -/
def handleChained? (s : RxdState T) (buf info : BitVec 32) (bufId : BitVec 16) (chaining : Bool) :
    Option (RxdState T × Bool) :=
  let s := if chaining then s
    else { s.write buf info with chain := ⟨false, 0, 0, fun _ => 0, fun _ => 0⟩ }
  if s.chain.abort then some (s.bufIdReturn bufId, true)
  else
    let segLen := (info >>> 3) &&& 0x3FFF#32
    (s.chain.store? s.chain.segs bufId (segLen.setWidth 16)).bind fun c =>
      let s := { s.count (fun d => { d with rxseg := d.rxseg + 1 }) with
        chain := { c with seglen := c.seglen + segLen, segs := c.segs + 1 } }
      if info &&& 1 ≠ 0 then
        if s.chain.segs > eagleMsegMax - 1 then
          ((List.range eagleMsegMax).mapM s.chain.bufid?).map fun ids =>
            ({ s with chain := { s.chain with abort := true }
                      returned := s.returned ++ ids }, true)
        else some (s, true)
      else
        let count := min s.chain.segs eagleMsegMax
        (s.chain.bufid? 0).bind fun first =>
          let head := s.bufUncached (first.setWidth 32)
          let s := s.write head ((s.mem head &&& 0xFFFE0007) ||| (8 * s.chain.seglen))
          (emitSegs? count count s).map fun s => (s, false)

/-- `eagle_rxdmad_handle`, `none` where it would leave the arrays. -/
def eagleRxdmadHandle? (submit : Submit T) (s : RxdState T) (chaining : Bool) :
    Option (RxdState T × Bool × ℕ) :=
  let d := s.desc s.ridx
  if (d.dw3 >>> 28).toNat ≠ s.gen then some (s, chaining, 1)
  else
    let next := rxdNext s.ridx
    let s := (s.count fun d => { d with rxd := d.rxd + 1 }).turn
    let bufId := (d.dw2 >>> 16).setWidth 16
    let buf := s.bufUncached (bufId.setWidth 32)
    let info := rxdInfo d.dw1 d.dw2
    let err := rxdErr d.dw1 d.dw2
    let s := if s.printing ∧ 200 < ((d.dw1 >>> 16) &&& 0x3FFF#32).toNat ∧ s.dbg.rxbig.toNat < 4 then
        s.count fun d => { d with rxbig := d.rxbig + 1 }
      else s
    if info &&& 1 = 0 ∧ chaining = false then
      some ((handleWhole submit s buf info err d.dw2 bufId).finish next, chaining, 0)
    else if info &&& 1 = 0 ∧ s.chain.abort then
      let s := s.bufIdReturn bufId
      some ({ s with chain := { s.chain with abort := false } }.finish next, false, 0)
    else
      (handleChained? s buf info bufId chaining).map fun r => (r.1.finish next, r.2, 0)

/-- While a chain goes on and is not given up, its next segment has an
    entry. -/
def RxdChain.Room (c : RxdChain) (chaining : Bool) : Prop :=
  chaining = true → c.abort = true ∨ c.segs < eagleMsegMax

variable {submit : Submit T} {s : RxdState T} {chaining : Bool} {c : RxdChain}

theorem RxdChain.bufid?_of_lt {i : ℕ} (h : i < eagleMsegMax) : c.bufid? i = some (c.bufid i) :=
  if_pos h

theorem RxdChain.len?_of_lt {i : ℕ} (h : i < eagleMsegMax) : c.len? i = some (c.len i) := if_pos h

/-- The loop over a complete chain stays below its count. -/
theorem emitSegs?_eq {count left : ℕ} (hcount : count ≤ eagleMsegMax) (hleft : left ≤ count) :
    emitSegs? count left s = some (emitSegs count left s) := by
  induction left generalizing s with
  | zero => rfl
  | succ left ih =>
    have hi : count - (left + 1) < eagleMsegMax := by omega
    unfold emitSegs? emitSegs
    dsimp only
    rw [RxdChain.bufid?_of_lt hi, RxdChain.len?_of_lt hi, Option.bind_some, Option.bind_some]
    exact ih (Nat.le_of_succ_le hleft)

theorem mapM_bufid? (c : RxdChain) :
    (List.range eagleMsegMax).mapM c.bufid? = some ((List.range eagleMsegMax).map c.bufid) := by
  have hall : ∀ l : List ℕ, (∀ i ∈ l, i < eagleMsegMax) → l.mapM c.bufid? = some (l.map c.bufid) := by
    intro l
    induction l with
    | nil => exact fun _ => rfl
    | cons i l ih =>
      intro hl
      obtain ⟨hi, hrest⟩ := List.forall_mem_cons.mp hl
      rw [List.mapM_cons, RxdChain.bufid?_of_lt hi, ih hrest]
      rfl
  exact hall _ fun i hi => List.mem_range.mp hi

/-- What a descriptor finds in the collection, emptied if it begins a
    chain. -/
theorem RxdChain.Room.begun (h : s.chain.Room chaining) (buf info : BitVec 32) :
    let s' := if chaining then s
      else { s.write buf info with chain := ⟨false, 0, 0, fun _ => 0, fun _ => 0⟩ }
    s'.chain.abort = true ∨ s'.chain.segs < eagleMsegMax := by
  by_cases hc : chaining = true
  · simp only [hc, if_true]
    exact h hc
  · simp only [if_neg hc]
    exact .inr (by decide)

/-- A descriptor of a chain that has room leaves no array. -/
theorem handleChained?_eq (h : s.chain.Room chaining) (buf info : BitVec 32) (bufId : BitVec 16) :
    handleChained? s buf info bufId chaining = some (handleChained s buf info bufId chaining) := by
  have hbegun := h.begun buf info
  unfold handleChained? handleChained
  dsimp only at hbegun ⊢
  generalize (if chaining = true then s
    else { s.write buf info with chain := ⟨false, 0, 0, fun _ => 0, fun _ => 0⟩ }) = s' at hbegun ⊢
  by_cases habort : s'.chain.abort = true
  · rw [if_pos habort, if_pos habort]
  · have hlt := hbegun.resolve_left habort
    rw [if_neg habort, if_neg habort, RxdChain.store?, if_pos hlt, Option.bind_some]
    dsimp only
    by_cases hmore : info &&& 1 ≠ 0
    · rw [if_pos hmore, if_pos hmore, mapM_bufid?]
      split_ifs <;> rfl
    · rw [if_neg hmore, if_neg hmore, RxdChain.bufid?_of_lt (by decide), Option.bind_some,
        emitSegs?_eq (min_le_right _ _) le_rfl]
      rfl

/-- It leaves room for the next one, or gives the chain up. -/
theorem handleChained_room (h : s.chain.Room chaining) (buf info : BitVec 32) (bufId : BitVec 16) :
    (handleChained s buf info bufId chaining).1.chain.Room
      (handleChained s buf info bufId chaining).2 := by
  have hbegun := h.begun buf info
  unfold handleChained
  dsimp only at hbegun ⊢
  generalize (if chaining = true then s
    else { s.write buf info with chain := ⟨false, 0, 0, fun _ => 0, fun _ => 0⟩ }) = s' at hbegun ⊢
  by_cases habort : s'.chain.abort = true
  · rw [if_pos habort]
    exact fun _ => .inl habort
  · rw [if_neg habort]
    by_cases hmore : info &&& 1 ≠ 0
    · rw [if_pos hmore]
      by_cases hfull : s'.chain.segs + 1 > eagleMsegMax - 1
      · rw [if_pos hfull]
        exact fun _ => .inl rfl
      · rw [if_neg hfull]
        exact fun _ => .inr (by unfold eagleMsegMax at *; dsimp only; omega)
    · rw [if_neg hmore]
      exact fun hgoes => absurd hgoes Bool.false_ne_true

theorem turn_chain (s : RxdState T) : s.turn.chain = s.chain := by
  unfold RxdState.turn
  split_ifs <;> rfl

theorem finish_chain (s : RxdState T) (next : ℕ) : (s.finish next).chain = s.chain := by
  unfold RxdState.finish
  dsimp only
  split_ifs <;> rfl

/-- Whatever the descriptor, a collection with room is not left. -/
theorem eagleRxdmadHandle?_eq (h : s.chain.Room chaining) :
    eagleRxdmadHandle? submit s chaining = some (eagleRxdmadHandle submit s chaining) := by
  have hturn : ∀ f : RxdDbg → RxdDbg, (s.count f).turn.chain.Room chaining := by
    intro f
    rw [turn_chain]
    exact h
  unfold eagleRxdmadHandle? eagleRxdmadHandle
  dsimp only
  split_ifs
  all_goals first
    | rfl
    | rw [handleChained?_eq (hturn _)]; rfl
    | rw [handleChained?_eq (s := RxdState.count _ _) (hturn _)]; rfl

/-- And it keeps its room. -/
theorem eagleRxdmadHandle_room (h : s.chain.Room chaining) :
    (eagleRxdmadHandle submit s chaining).1.chain.Room
      (eagleRxdmadHandle submit s chaining).2.1 := by
  have hturn : ∀ f : RxdDbg → RxdDbg, (s.count f).turn.chain.Room chaining := by
    intro f
    rw [turn_chain]
    exact h
  unfold eagleRxdmadHandle
  dsimp only
  split_ifs with hgen hwhole hprint hprint habort habort
  · exact h
  · -- a whole frame: no chain before it and none after
    exact fun hgoes => Bool.noConfusion (hgoes.symm.trans hwhole.2)
  · exact fun hgoes => Bool.noConfusion (hgoes.symm.trans hwhole.2)
  · exact fun hgoes => Bool.noConfusion hgoes
  · dsimp only
    rw [finish_chain]
    exact handleChained_room (s := RxdState.count _ _) (hturn _) _ _ _
  · exact fun hgoes => Bool.noConfusion hgoes
  · dsimp only
    rw [finish_chain]
    exact handleChained_room (hturn _) _ _ _

/-! ## Runs of descriptors -/

/-- Calls of `eagle_rxdmad_handle`. Between two of them everything but the
    collection may change: the descriptors, the queues, memory and the
    rings. -/
def handleRuns (submit : Submit T) : StepSystem (RxdState T × Bool) (RxdState T) where
  init p := p.2 = false
  step p found p' :=
    let r := eagleRxdmadHandle submit { found with chain := p.1.chain } p.2
    p' = (r.1, r.2.1)

theorem room_of_reachable {p : RxdState T × Bool} (h : (handleRuns submit).Reachable p) :
    p.1.chain.Room p.2 := by
  induction h with
  | init hinit => exact fun hgoes => absurd (hgoes.symm.trans hinit) (by decide)
  | step found _ hstep hroom =>
    rw [show _ = _ from hstep]
    exact eagleRxdmadHandle_room hroom

/-! ## The drain -/

/-- The loop that collects a frame from `idx` on, `segs` found so far: it
    tests bit 0 at read `t`, and takes the flags at read `t + 1`. -/
def msegCollectReads (cell : ℕ → ℕ → MsegWords) (retry t idx segs waited : ℕ) :
    Option (Bool × ℕ × ℕ) :=
  if (cell t idx).valid = false then
    if waited + 1 > retry then none
    else msegCollectReads cell retry (t + 1) idx segs (waited + 1)
  else
    let flags := (cell (t + 1) idx).flags
    let segs' := segs + 1
    if flagLast flags then
      some (decide (flagCount flags = segs' ∧ flagIdx flags = segs'), segs', t + 2)
    else if segs' ≥ flagCount flags then some (false, segs', t + 2)
    else if waited > retry then none
    else msegCollectReads cell retry (t + 2) (msegNext idx) segs' waited
termination_by (retry + 1 - waited) + (8 - segs)
decreasing_by
  · omega
  · have hcount := flagCount_lt flags
    omega

/-- `s` and `ids` of `eagle_mseg_drain` -/
structure MsegLocals where
  segs : ℕ → HostSeg
  ids : ℕ → BitVec 16

/-- `ids[i] = …; s[i] = …` -/
def MsegLocals.store? (a : MsegLocals) (i : ℕ) (bufId : BitVec 16) (seg : HostSeg) :
    Option MsegLocals :=
  if i < eagleMsegMax then
    some ⟨Function.update a.segs i seg, Function.update a.ids i bufId⟩
  else none

/-- The loop that copies the entries, from `i` on; an entry takes four
    reads. -/
def msegCopy? (cell : ℕ → ℕ → MsegWords) (m : RxBufs) :
    ℕ → ℕ → ℕ → ℕ → MsegLocals → Option MsegLocals
  | 0, _, _, _, a => some a
  | left + 1, t, idx, i, a =>
    let c : MsegWords :=
      ⟨(cell t idx).bufId, (cell (t + 2) idx).frame, (cell (t + 3) idx).seg,
        (cell (t + 1) idx).flags⟩
    (a.store? i (c.bufId.setWidth 16) (c.hostSeg m)).bind
      (msegCopy? cell m left (t + 4) (msegNext idx) (i + 1))

/-- What `eagle_mseg_drain` collects with `HAS_ASYNC_COPY`: whether it is a
    frame, how many segments, and the arrays. `none` where it would leave
    them. -/
def eagleMsegDrain? (cell : ℕ → ℕ → MsegWords) (m : RxBufs) (retry ridx : ℕ) (a : MsegLocals) :
    Option (Option (Bool × ℕ × MsegLocals)) :=
  if (cell 0 ridx).valid = false then some none
  else
    match msegCollectReads cell retry 1 ridx 0 0 with
    | none => some none
    | some (ok, n, t) => (msegCopy? cell m n t ridx 0 a).map fun a => some (ok, n, a)

variable {cell : ℕ → ℕ → MsegWords} {m : RxBufs} {retry t idx segs waited n : ℕ}

/-- A count of three bits ends the loop at the seventh segment. -/
theorem msegCollectReads_le {r : Bool × ℕ × ℕ} (hsegs : segs < eagleMsegMax)
    (h : msegCollectReads cell retry t idx segs waited = some r) : r.2.1 ≤ eagleMsegMax := by
  fun_induction msegCollectReads cell retry t idx segs waited with
  | case1 => cases h
  | case2 t idx segs waited hvalid hwait ih => exact ih hsegs h
  | case3 t idx segs waited hvalid flags segs' hlast =>
    obtain rfl := Option.some.inj h
    exact hsegs
  | case4 t idx segs waited hvalid flags segs' hlast hend =>
    obtain rfl := Option.some.inj h
    exact hsegs
  | case5 => cases h
  | case6 t idx segs waited hvalid flags segs' hlast hend hwait ih =>
    have hcount := flagCount_lt flags
    have hmax : eagleMsegMax = 7 := rfl
    exact ih (by omega) h

/-- Over a queue that stands still the loop collects what the drain of a
    settled queue does. -/
theorem msegCollectReads_still {c : ℕ → MsegWords} {fuel : ℕ} (hwaited : waited ≤ retry)
    (hsegs : segs < 8) (hfuel : 8 - segs ≤ fuel) :
    (msegCollectReads (fun _ => c) retry t idx segs waited).map (fun r => (r.1, r.2.1))
      = Hostadpt.msegCollect c fuel idx segs := by
  obtain ⟨fuel, rfl⟩ := Nat.exists_eq_add_of_le' (show 1 ≤ fuel by omega)
  fun_induction msegCollectReads (fun _ => c) retry t idx segs waited generalizing fuel with
  | case1 t idx segs waited hvalid hwait => rw [Hostadpt.msegCollect, if_pos hvalid]; rfl
  | case2 t idx segs waited hvalid hwait ih =>
    exact ih (by omega) hsegs fuel hfuel
  | case3 t idx segs waited hvalid flags segs' hlast =>
    rw [Hostadpt.msegCollect, if_neg hvalid]
    exact (if_pos hlast).symm
  | case4 t idx segs waited hvalid flags segs' hlast hend =>
    rw [Hostadpt.msegCollect, if_neg hvalid]
    exact ((if_neg hlast).trans (if_pos hend)).symm
  | case5 t idx segs waited hvalid flags segs' hlast hend hwait => omega
  | case6 t idx segs waited hvalid flags segs' hlast hend hwait ih =>
    have hcount := flagCount_lt flags
    obtain ⟨fuel, rfl⟩ := Nat.exists_eq_add_of_le' (show 1 ≤ fuel by omega)
    rw [Hostadpt.msegCollect, if_neg hvalid]
    exact (ih hwaited (by omega) fuel (by omega)).trans ((if_neg hlast).trans (if_neg hend)).symm

theorem msegCopy?_isSome (cell : ℕ → ℕ → MsegWords) (m : RxBufs) (t idx : ℕ) (a : MsegLocals)
    {left i : ℕ} (h : i + left ≤ eagleMsegMax) :
    (msegCopy? cell m left t idx i a).isSome := by
  induction left generalizing t idx i a with
  | zero => rfl
  | succ left ih =>
    have hi : i < eagleMsegMax := by omega
    unfold msegCopy?
    dsimp only
    rw [MsegLocals.store?, if_pos hi, Option.bind_some]
    exact ih _ _ _ (by omega)

theorem eagleMsegDrain?_some (cell : ℕ → ℕ → MsegWords) (m : RxBufs) (retry ridx : ℕ)
    (a : MsegLocals) : ∃ r, eagleMsegDrain? cell m retry ridx a = some r ∧
      ∀ ok n a', r = some (ok, n, a') → n ≤ eagleMsegMax := by
  unfold eagleMsegDrain?
  split_ifs
  · exact ⟨none, rfl, fun _ _ _ h => by cases h⟩
  · rcases hcollect : msegCollectReads cell retry 1 ridx 0 0 with _ | ⟨ok, n, t⟩
    · exact ⟨none, rfl, fun _ _ _ h => by cases h⟩
    · have hle := msegCollectReads_le (by decide) hcollect
      obtain ⟨a', ha'⟩ := Option.isSome_iff_exists.mp
        (msegCopy?_isSome cell m t ridx a ((Nat.zero_add n).trans_le hle))
      refine ⟨some (ok, n, a'), ?_, ?_⟩
      · dsimp only
        rw [ha']
        rfl
      · rintro ok' n' a'' h
        obtain ⟨-, rfl, -⟩ := by simpa using h
        exact hle

/-- In every run of descriptors the collection is not left, and whatever
    the queue shows the drain collects no more than its arrays hold. -/
theorem segments_in_bounds (submit : Submit T) :
    (∀ p, (handleRuns submit).Reachable p → ∀ found : RxdState T,
      eagleRxdmadHandle? submit { found with chain := p.1.chain } p.2
        = some (eagleRxdmadHandle submit { found with chain := p.1.chain } p.2)) ∧
    ∀ cell m retry ridx a, ∃ r, eagleMsegDrain? cell m retry ridx a = some r ∧
      ∀ ok n a', r = some (ok, n, a') → n ≤ eagleMsegMax :=
  ⟨fun _ h _ => eagleRxdmadHandle?_eq (room_of_reachable h), eagleMsegDrain?_some⟩

end ClankerNPU.EagleRx.Fast
