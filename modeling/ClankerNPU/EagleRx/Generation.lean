import ClankerNPU.EagleRx.Fast
import ClankerNPU.Lib.StepSystem

/-! # The generations of the rxdmad ring

    The rxdmad ring has no own bit: the chip stamps each descriptor with a
    4-bit generation that it raises on every wrap, and the handlers take a
    descriptor whose stamp is the generation they expect. The chip and
    core 1 take turns in any order; everything else of the state may
    change between two polls. -/

namespace ClankerNPU.EagleRx.Fast

variable {T : Type*} {submit : Submit T} {s s' : RxdState T}

/-! ## What a poll does to the cursor -/

/-- The ring and where the handlers stand in it. -/
def RxdState.cursor (s : RxdState T) : (ℕ → RxdDesc) × ℕ × ℕ := (s.desc, s.ridx, s.gen)

/-- The cursor behind the descriptor it stands at. -/
def RxdState.pastCursor (s : RxdState T) : (ℕ → RxdDesc) × ℕ × ℕ :=
  (s.desc, rxdNext s.ridx, if s.ridx = eagleRxRingMaxIdx then (s.gen + 1) % 16 else s.gen)

/-- The descriptor at the cursor bears the generation expected. -/
def RxdState.Due (s : RxdState T) : Prop := ((s.desc s.ridx).dw3 >>> 28).toNat = s.gen

theorem cursor_enqueue (bufId : BitVec 32) (segLen wcid : BitVec 16) (info : BitVec 8) (dst : ℕ)
    (flags : BitVec 8) (pktLen : BitVec 16) :
    (eaglePktEnqueue s bufId segLen wcid info dst flags pktLen).1.cursor = s.cursor := by
  unfold eaglePktEnqueue
  dsimp only
  split_ifs <;> rfl

theorem cursor_txq1Put (bufId : BitVec 32) (len : BitVec 16) :
    (eagleTxq1Put s bufId len).1.cursor = s.cursor := by
  unfold eagleTxq1Put
  dsimp only
  split_ifs <;> rfl

theorem cursor_submit (bufId : BitVec 16) (len addr : BitVec 32) :
    (s.submit submit bufId len addr).cursor = s.cursor := by
  unfold RxdState.submit
  dsimp only
  split_ifs <;> rfl

theorem cursor_dropIf (r : RxdState T × Bool) (bufId : BitVec 16) :
    (RxdState.dropIf r bufId).cursor = r.1.cursor := by
  unfold RxdState.dropIf
  split_ifs <;> rfl

theorem cursor_handleWhole (buf info err dw2 : BitVec 32) (bufId : BitVec 16) :
    (handleWhole submit s buf info err dw2 bufId).cursor = s.cursor := by
  unfold handleWhole
  dsimp only
  split_ifs
  · rw [cursor_submit]
    rfl
  · rw [cursor_dropIf, cursor_enqueue]
    rfl
  · rw [cursor_dropIf, cursor_enqueue]
    rfl

theorem cursor_emitSegs (count left : ℕ) (s : RxdState T) :
    (emitSegs count left s).cursor = s.cursor := by
  induction left generalizing s with
  | zero => rfl
  | succ left ih =>
    unfold emitSegs
    rw [ih]
    split_ifs
    · exact cursor_enqueue _ _ _ _ _ _ _
    · exact cursor_enqueue _ _ _ _ _ _ _

theorem cursor_handleChained (buf info : BitVec 32) (bufId : BitVec 16) (chaining : Bool) :
    (handleChained s buf info bufId chaining).1.cursor = s.cursor := by
  -- the first descriptor of a chain resets it
  have hstart : (if chaining then s else
      { s.write buf info with chain := ⟨false, 0, 0, fun _ => 0, fun _ => 0⟩ }).cursor =
        s.cursor := by
    split <;> rfl
  unfold handleChained
  dsimp only
  generalize (if chaining then s else
    { s.write buf info with chain := ⟨false, 0, 0, fun _ => 0, fun _ => 0⟩ }) = t at hstart ⊢
  rw [← hstart]
  split_ifs
  · rfl
  · rfl
  · rfl
  · rw [cursor_emitSegs]
    rfl

theorem finish_cursor {t : RxdState T} (ht : t.cursor = s.turn.cursor) (next : ℕ) :
    (t.finish next).cursor
      = (s.desc, next, if s.ridx = eagleRxRingMaxIdx then (s.gen + 1) % 16 else s.gen) := by
  have hfinish : (t.finish next).cursor = (t.desc, next, t.gen) := by
    unfold RxdState.finish
    dsimp only
    split_ifs <;> rfl
  have hturn : s.turn.cursor
      = (s.desc, s.ridx, if s.ridx = eagleRxRingMaxIdx then (s.gen + 1) % 16 else s.gen) := by
    unfold RxdState.turn
    split_ifs <;> rfl
  rw [hturn] at ht
  unfold RxdState.cursor at ht
  obtain ⟨hdesc, hrest⟩ := Prod.mk.inj ht
  rw [hfinish, hdesc, (Prod.mk.inj hrest).2]

theorem cursor_count_turn (s : RxdState T) :
    (s.count fun d => { d with rxd := d.rxd + 1 }).turn.cursor = s.turn.cursor := by
  unfold RxdState.turn
  split_ifs with h h'
  · rfl
  · exact absurd h h'
  · next h' => exact absurd h' h
  · rfl

/-- The sampled dump only counts. -/
theorem cursor_sample (p : Prop) [Decidable p] (f : RxdDbg → RxdDbg) (s : RxdState T) :
    (if p then s.count f else s).cursor = s.cursor := by
  split <;> rfl

/-- What the full handler does with a descriptor it has taken, `t` being
    the state once the cursor is past it. -/
theorem handled_cursor {t : RxdState T} (ht : t.cursor = s.turn.cursor)
    (buf info err dw2 : BitVec 32) (bufId : BitVec 16) (chaining : Bool) :
    let r := if info &&& 1 = 0 ∧ chaining = false then
        ((handleWhole submit t buf info err dw2 bufId).finish (rxdNext s.ridx), chaining, 0)
      else if info &&& 1 = 0 ∧ t.chain.abort = true then
        ({ t.bufIdReturn bufId with
            chain := { (t.bufIdReturn bufId).chain with abort := false } }.finish
              (rxdNext s.ridx), false, 0)
      else
        ((handleChained t buf info bufId chaining).1.finish (rxdNext s.ridx),
          (handleChained t buf info bufId chaining).2, 0)
    r.2.2 = 0 ∧ r.1.cursor = s.pastCursor := by
  intro r
  by_cases hwhole : info &&& 1 = 0 ∧ chaining = false
  · have hr : r = ((handleWhole submit t buf info err dw2 bufId).finish (rxdNext s.ridx),
        chaining, 0) := if_pos hwhole
    rw [hr]
    exact ⟨rfl, finish_cursor ((cursor_handleWhole _ _ _ _ _).trans ht) _⟩
  · by_cases habort : info &&& 1 = 0 ∧ t.chain.abort = true
    · have hr : r = _ := (if_neg hwhole).trans (if_pos habort)
      have hdropped : RxdState.cursor { t.bufIdReturn bufId with
          chain := { (t.bufIdReturn bufId).chain with abort := false } } = s.turn.cursor := ht
      rw [hr]
      exact ⟨rfl, finish_cursor hdropped _⟩
    · have hr : r = _ := (if_neg hwhole).trans (if_neg habort)
      rw [hr]
      exact ⟨rfl, finish_cursor ((cursor_handleChained _ _ _ _).trans ht) _⟩

/-- The full handler takes the descriptor at the cursor if it is due. -/
theorem handle_cursor (submit : Submit T) (s : RxdState T) (chaining : Bool) :
    (s.Due ∧ (eagleRxdmadHandle submit s chaining).2.2 = 0 ∧
      (eagleRxdmadHandle submit s chaining).1.cursor = s.pastCursor) ∨
    (¬s.Due ∧ eagleRxdmadHandle submit s chaining = (s, chaining, 1)) := by
  by_cases hdue : s.Due
  · refine .inl ⟨hdue, ?_⟩
    have hgen : ¬((s.desc s.ridx).dw3 >>> 28).toNat ≠ s.gen := not_not.mpr hdue
    unfold eagleRxdmadHandle
    dsimp only
    rw [if_neg hgen]
    exact handled_cursor ((cursor_sample _ _ _).trans (cursor_count_turn s)) _ _ _ _ _ _
  · refine .inr ⟨hdue, ?_⟩
    have hgen : ((s.desc s.ridx).dw3 >>> 28).toNat ≠ s.gen := hdue
    unfold eagleRxdmadHandle
    dsimp only
    rw [if_pos hgen]

/-- The fast path takes the descriptor at the cursor, finds it not due, or
    leaves it. -/
theorem fast_cursor (submit : Submit T) (s : RxdState T) :
    (s.Due ∧ (eagleRxdmadFast submit s).2 = 0 ∧
      (eagleRxdmadFast submit s).1.cursor = s.pastCursor) ∨
    (¬s.Due ∧ eagleRxdmadFast submit s = (s, 1)) ∨
    (s.Due ∧ eagleRxdmadFast submit s = (s, 2)) := by
  by_cases hdue : s.Due
  · have hgen : ¬((s.desc s.ridx).dw3 >>> 28).toNat ≠ s.gen := not_not.mpr hdue
    have hturn := cursor_count_turn s
    unfold eagleRxdmadFast
    dsimp only
    rw [if_neg hgen]
    split_ifs
    · exact .inr (.inr ⟨hdue, rfl⟩)
    · refine .inl ⟨hdue, rfl, finish_cursor ?_ _⟩
      rw [cursor_submit]
      exact hturn
    · refine .inl ⟨hdue, rfl, finish_cursor ?_ _⟩
      rw [cursor_dropIf, cursor_txq1Put]
      exact hturn
    · refine .inl ⟨hdue, rfl, finish_cursor ?_ _⟩
      rw [cursor_dropIf, cursor_txq1Put]
      exact hturn
  · refine .inr (.inl ⟨hdue, ?_⟩)
    have hgen : ((s.desc s.ridx).dw3 >>> 28).toNat ≠ s.gen := hdue
    unfold eagleRxdmadFast
    dsimp only
    rw [if_pos hgen]

/-- `eagle_rxdmad_next`: the state, `*chaining` and the answer. `hot`: the
    build has the fast path. -/
def eagleRxdmadNext (submit : Submit T) (hot : Bool) (s : RxdState T) (chaining : Bool) :
    RxdState T × Bool × ℕ :=
  if hot = true ∧ chaining = false then
    let r := eagleRxdmadFast submit s
    if r.2 = 2 then eagleRxdmadHandle submit r.1 chaining else (r.1, chaining, r.2)
  else eagleRxdmadHandle submit s chaining

/-- A poll takes the descriptor at the cursor if it is due, whichever
    handler sees it. -/
theorem next_cursor (submit : Submit T) (hot : Bool) (s : RxdState T) (chaining : Bool) :
    (s.Due ∧ (eagleRxdmadNext submit hot s chaining).2.2 = 0 ∧
      (eagleRxdmadNext submit hot s chaining).1.cursor = s.pastCursor) ∨
    (¬s.Due ∧ eagleRxdmadNext submit hot s chaining = (s, chaining, 1)) := by
  unfold eagleRxdmadNext
  by_cases hfast : hot = true ∧ chaining = false
  · rw [if_pos hfast]
    dsimp only
    rcases fast_cursor submit s with ⟨hdue, hdone, hcursor⟩ | ⟨hdue, hempty⟩ | ⟨-, hleft⟩
    · have hother : ¬(eagleRxdmadFast submit s).2 = 2 := by
        rw [hdone]
        decide
      rw [if_neg hother]
      exact .inl ⟨hdue, hdone, hcursor⟩
    · rw [hempty]
      exact .inr ⟨hdue, rfl⟩
    · rw [hleft]
      exact handle_cursor submit s chaining
  · rw [if_neg hfast]
    exact handle_cursor submit s chaining

/-! ## The chip and core 1 -/

/-- The descriptors of the ring. -/
def rxdmadEntries : ℕ := eagleRxRingMaxIdx + 1

/-- `eagle_ind_cmd_ring_init` of the wide ring. -/
def eagleIndCmdRingInit (s : RxdState T) (ringSize : ℕ) : RxdState T :=
  -- a size of 0 wraps and is cut as well
  let size :=
    if u32 ((ringSize : ℤ) - 1) > eagleRxRingMaxIdx then eagleRxRingMaxIdx + 1 else ringSize
  { s with
    desc := fun i =>
      if i < size then { s.desc i with dw3 := (s.desc i).dw3 ||| 0xF0000000 } else s.desc i
    ridx := 0
    gen := 0 }

/-- The generation of the chip's `k`-th descriptor. -/
def stampOf (k : ℕ) : ℕ := k / rxdmadEntries % 16

/-- The receive path with core 1's `chaining`, and what went by: the
    descriptors the chip wrote and those core 1 took, each in order. -/
structure RxdRun (T : Type*) where
  rx : RxdState T
  chaining : Bool
  written : List RxdDesc
  taken : List RxdDesc

/-- What goes on around the ring. -/
inductive RxdAction where
  /-- the chip writes its next descriptor; `low`: the rest of word 3 -/
  | write (dw1 dw2 : BitVec 32) (low : BitVec 28)
  /-- core 1 polls the ring, `hot`: with the fast path first -/
  | poll (hot : Bool)
  /-- anything but the ring and the cursor changes -/
  | other

/-- The descriptor the chip writes next. -/
def RxdRun.chipDesc (s : RxdRun T) (dw1 dw2 : BitVec 32) (low : BitVec 28) : RxdDesc :=
  ⟨dw1, dw2, BitVec.ofNat 32 (stampOf s.written.length * 2 ^ 28 + low.toNat)⟩

/-- The chip is never more than one ring ahead. -/
def rxdmadSystem (submit : Submit T) : StepSystem (RxdRun T) RxdAction where
  init := fun s => (∃ s0, s.rx = eagleIndCmdRingInit s0 rxdmadEntries) ∧ s.written = [] ∧
    s.taken = []
  step := fun s a s' =>
    match a with
    | .write dw1 dw2 low =>
      s.written.length < s.taken.length + rxdmadEntries ∧
        s' = { s with
          rx := { s.rx with
            desc := Function.update s.rx.desc (s.written.length % rxdmadEntries)
              (s.chipDesc dw1 dw2 low) }
          written := s.written ++ [s.chipDesc dw1 dw2 low] }
    | .poll hot =>
      let r := eagleRxdmadNext submit hot s.rx s.chaining
      s' = { s with
        rx := r.1
        chaining := r.2.1
        taken := if r.2.2 = 0 then s.taken ++ [s.rx.desc s.rx.ridx] else s.taken }
    | .other => s'.rx.cursor = s.rx.cursor ∧ s'.chaining = s.chaining ∧
        s'.written = s.written ∧ s'.taken = s.taken

/-! ## The invariant -/

/-- Where the cursor stands, and what each slot of the ring bears: the
    chip's descriptor that is still to be taken, or the stamp of the wrap
    before. A fresh ring's stamp is that of a wrap before the first. -/
structure RingInv (s : RxdRun T) : Prop where
  ridx : s.rx.ridx = s.taken.length % rxdmadEntries
  gen : s.rx.gen = stampOf s.taken.length
  behind : s.taken.length ≤ s.written.length
  ahead : s.written.length ≤ s.taken.length + rxdmadEntries
  inOrder : s.taken = s.written.take s.taken.length
  stamped : ∀ (k : ℕ) (hk : k < s.written.length), (s.written[k].dw3 >>> 28).toNat = stampOf k
  waiting : ∀ (k : ℕ) (hk : k < s.written.length), s.taken.length ≤ k →
    s.rx.desc (k % rxdmadEntries) = s.written[k]
  stale : ∀ k, s.written.length ≤ k → k < s.taken.length + rxdmadEntries →
    ((s.rx.desc (k % rxdmadEntries)).dw3 >>> 28).toNat = (k / rxdmadEntries + 15) % 16

variable {r r' : RxdRun T}

theorem stampOf_lt (k : ℕ) : stampOf k < 16 := Nat.mod_lt _ (by decide)

/-- The top nibble of word 3 is the stamp. -/
theorem stamp_chipDesc (r : RxdRun T) (dw1 dw2 : BitVec 32) (low : BitVec 28) :
    ((r.chipDesc dw1 dw2 low).dw3 >>> 28).toNat = stampOf r.written.length := by
  have hstamp := stampOf_lt r.written.length
  have hlow := low.isLt
  unfold RxdRun.chipDesc
  dsimp only
  rw [BitVec.toNat_ushiftRight, BitVec.toNat_ofNat, Nat.shiftRight_eq_div_pow]
  omega

theorem rxdNext_mod (k : ℕ) : rxdNext (k % rxdmadEntries) = (k + 1) % rxdmadEntries := by
  have hsize : rxdmadEntries = 1536 := rfl
  unfold rxdNext
  rw [hsize]
  split_ifs <;> omega

theorem stampOf_succ (k : ℕ) :
    (if k % rxdmadEntries = eagleRxRingMaxIdx then (stampOf k + 1) % 16 else stampOf k)
      = stampOf (k + 1) := by
  have hsize : rxdmadEntries = 1536 := rfl
  have hlast : eagleRxRingMaxIdx = 1535 := rfl
  unfold stampOf
  rw [hsize, hlast]
  split_ifs <;> omega

/-- The descriptor at the cursor is due exactly when the chip wrote it. -/
theorem RingInv.due_iff (h : RingInv r) : r.rx.Due ↔ r.taken.length < r.written.length := by
  have hsize : rxdmadEntries = 1536 := rfl
  unfold RxdState.Due
  rw [h.ridx, h.gen]
  constructor
  · intro hdue
    by_contra hnone
    -- the slot still bears the stamp of the wrap before
    have hstale := h.stale r.taken.length (Nat.le_of_not_lt hnone) (by omega)
    rw [hdue] at hstale
    unfold stampOf at hstale
    omega
  · intro hlt
    rw [h.waiting _ hlt le_rfl]
    exact h.stamped _ hlt

theorem RingInv.write {dw1 dw2 : BitVec 32} {low : BitVec 28} (h : RingInv r)
    (hroom : r.written.length < r.taken.length + rxdmadEntries) :
    RingInv { r with
      rx := { r.rx with
        desc := Function.update r.rx.desc (r.written.length % rxdmadEntries)
          (r.chipDesc dw1 dw2 low) }
      written := r.written ++ [r.chipDesc dw1 dw2 low] } := by
  have hsize : rxdmadEntries = 1536 := rfl
  have hbehind := h.behind
  refine ⟨h.ridx, h.gen, ?_, ?_, ?_, ?_, ?_, ?_⟩
  · dsimp only
    rw [List.length_append]
    omega
  · dsimp only
    rw [List.length_append, List.length_singleton]
    omega
  · dsimp only
    rw [List.take_append_of_le_length hbehind]
    exact h.inOrder
  · intro k hk
    dsimp only at hk ⊢
    rw [List.length_append, List.length_singleton] at hk
    -- the new descriptor is stamped by its number
    rcases Nat.lt_succ_iff_lt_or_eq.mp hk with hlt | rfl
    · rw [List.getElem_append_left hlt]
      exact h.stamped k hlt
    · rw [List.getElem_concat_length rfl]
      exact stamp_chipDesc r dw1 dw2 low
  · intro k hk hle
    dsimp only at hk hle ⊢
    rw [List.length_append, List.length_singleton] at hk
    rcases Nat.lt_succ_iff_lt_or_eq.mp hk with hlt | rfl
    · -- less than a ring apart, so not the slot written
      have hne : k % rxdmadEntries ≠ r.written.length % rxdmadEntries := by
        rw [hsize] at hroom ⊢
        omega
      rw [Function.update_of_ne hne, List.getElem_append_left hlt]
      exact h.waiting k hlt hle
    · rw [Function.update_self, List.getElem_concat_length rfl]
  · intro k hk hlt
    dsimp only at hk hlt ⊢
    rw [List.length_append, List.length_singleton] at hk
    have hne : k % rxdmadEntries ≠ r.written.length % rxdmadEntries := by
      rw [hsize] at hlt ⊢
      omega
    rw [Function.update_of_ne hne]
    exact h.stale k (by omega) hlt

/-- Core 1 takes the descriptor the chip wrote; its slot then bears the
    stamp of the wrap before. -/
theorem RingInv.take {rx : RxdState T} {chaining : Bool} (h : RingInv r)
    (hlt : r.taken.length < r.written.length) (hcursor : rx.cursor = r.rx.pastCursor) :
    RingInv { r with
      rx := rx
      chaining := chaining
      taken := r.taken ++ [r.rx.desc r.rx.ridx] } := by
  have hsize : rxdmadEntries = 1536 := rfl
  have hbehind := h.behind
  have hahead := h.ahead
  obtain ⟨hdesc, hrest⟩ := Prod.mk.inj hcursor
  obtain ⟨hridx, hgen⟩ := Prod.mk.inj hrest
  have hslot : r.rx.desc r.rx.ridx = r.written[r.taken.length] := by
    rw [h.ridx]
    exact h.waiting _ hlt le_rfl
  refine ⟨?_, ?_, ?_, ?_, ?_, h.stamped, ?_, ?_⟩
  · dsimp only
    rw [hridx, h.ridx, rxdNext_mod, List.length_append, List.length_singleton]
  · dsimp only
    rw [hgen, h.ridx, h.gen, stampOf_succ, List.length_append, List.length_singleton]
  · dsimp only
    rw [List.length_append, List.length_singleton]
    exact hlt
  · dsimp only
    rw [List.length_append, List.length_singleton]
    omega
  · dsimp only
    rw [List.length_append, List.length_singleton, List.take_add_one, ← h.inOrder, hslot,
      List.getElem?_eq_getElem hlt]
    rfl
  · intro k hk hle
    dsimp only at hk hle ⊢
    rw [List.length_append] at hle
    rw [hdesc]
    exact h.waiting k hk (by omega)
  · intro k hk hlt'
    dsimp only at hk hlt' ⊢
    rw [List.length_append, List.length_singleton] at hlt'
    rw [hdesc]
    by_cases hold : k < r.taken.length + rxdmadEntries
    · exact h.stale k hk hold
    · -- the slot just taken, one wrap on
      obtain rfl : k = r.taken.length + rxdmadEntries := by omega
      rw [Nat.add_mod_right, h.waiting _ hlt le_rfl, h.stamped _ hlt]
      unfold stampOf
      rw [hsize]
      omega

/-- A fresh ring's stamp is all ones, generation 15. -/
theorem fresh_stamp (x : BitVec 32) : ((x ||| 0xF0000000) >>> 28).toNat = 15 := by
  have hstamp : (x ||| 0xF0000000#32) >>> 28 = 15#32 := by
    apply BitVec.eq_of_getLsbD_eq
    intro i hi
    interval_cases i <;> simp
  rw [show (0xF0000000 : BitVec 32) = 0xF0000000#32 from rfl, hstamp]
  rfl

theorem ringInv_init (h : (rxdmadSystem submit).init r) : RingInv r := by
  have hsize : rxdmadEntries = 1536 := rfl
  obtain ⟨⟨s0, hrx⟩, hwritten, htaken⟩ := h
  refine ⟨?_, ?_, ?_, ?_, ?_, ?_, ?_, ?_⟩
  · rw [hrx, htaken]
    rfl
  · rw [hrx, htaken]
    rfl
  · rw [htaken]
    exact Nat.zero_le _
  · rw [hwritten]
    exact Nat.zero_le _
  · rw [hwritten, htaken]
    rfl
  · intro k hk
    rw [hwritten] at hk
    cases hk
  · intro k hk
    rw [hwritten] at hk
    cases hk
  · intro k _ hk
    rw [htaken, List.length_nil, Nat.zero_add, hsize] at hk
    have hin : k % rxdmadEntries < rxdmadEntries := Nat.mod_lt _ (by decide)
    have hfresh : (r.rx.desc (k % rxdmadEntries)).dw3
        = (s0.desc (k % rxdmadEntries)).dw3 ||| 0xF0000000 := by
      rw [hrx]
      show (if k % rxdmadEntries < rxdmadEntries then _ else _ : RxdDesc).dw3 = _
      rw [if_pos hin]
    have hquot : k / rxdmadEntries = 0 := Nat.div_eq_of_lt (by omega)
    rw [hfresh, hquot, fresh_stamp]

theorem ringInv_step {a : RxdAction} (h : RingInv r) (hstep : (rxdmadSystem submit).step r a r') :
    RingInv r' := by
  cases a with
  | write dw1 dw2 low =>
    obtain ⟨hroom, rfl⟩ := hstep
    exact h.write hroom
  | poll hot =>
    obtain rfl := hstep
    rcases next_cursor submit hot r.rx r.chaining with ⟨hdue, hdone, hcursor⟩ | ⟨-, hempty⟩
    · rw [if_pos hdone]
      exact h.take (h.due_iff.mp hdue) hcursor
    · rw [hempty]
      exact h
  | other =>
    obtain ⟨hcursor, -, hwritten, htaken⟩ := hstep
    obtain ⟨hdesc, hrest⟩ := Prod.mk.inj hcursor
    obtain ⟨hridx, hgen⟩ := Prod.mk.inj hrest
    obtain ⟨rx, chaining, written, taken⟩ := r'
    dsimp only at hdesc hridx hgen hwritten htaken
    subst hwritten htaken
    exact ⟨hridx.trans h.ridx, hgen.trans h.gen, h.behind, h.ahead, h.inOrder, h.stamped,
      fun k hk hle => by rw [hdesc]; exact h.waiting k hk hle,
      fun k hk hlt => by rw [hdesc]; exact h.stale k hk hlt⟩

theorem ringInv_of_reachable (h : (rxdmadSystem submit).Reachable r) : RingInv r :=
  h.invariant (fun _ hs => ringInv_init hs) fun _ _ _ hinv hstep => ringInv_step hinv hstep

/-- Nothing is lost, repeated or taken too soon. -/
structure RxdInStep (submit : Submit T) (r : RxdRun T) : Prop where
  /-- core 1 took the chip's descriptors in order, each once -/
  inOrder : r.taken <+: r.written
  /-- a poll takes a descriptor exactly when the chip has written one more -/
  polled : ∀ hot, (eagleRxdmadNext submit hot r.rx r.chaining).2.2 = 0 ↔
    r.taken.length < r.written.length
  /-- and it is the next one -/
  next : ∀ hlt : r.taken.length < r.written.length,
    r.rx.desc r.rx.ridx = r.written[r.taken.length]

theorem rxdmad_inStep (submit : Submit T) (r : RxdRun T)
    (h : (rxdmadSystem submit).Reachable r) : RxdInStep submit r := by
  have hinv := ringInv_of_reachable h
  refine ⟨?_, ?_, ?_⟩
  · rw [hinv.inOrder]
    exact List.take_prefix _ _
  · intro hot
    rw [← hinv.due_iff]
    rcases next_cursor submit hot r.rx r.chaining with ⟨hdue, hdone, -⟩ | ⟨hdue, hempty⟩
    · exact iff_of_true hdone hdue
    · refine iff_of_false ?_ hdue
      rw [hempty]
      exact Nat.one_ne_zero
  · intro hlt
    rw [hinv.ridx]
    exact hinv.waiting _ hlt le_rfl

/-- The chip writes a descriptor into a fresh ring and core 1 takes it. -/
theorem rxdmad_inStep_one : ∃ r, r.taken.length = 1 ∧
    RxdInStep (fun _ _ _ _ _ => ((), false)) r := by
  have h0 : (rxdmadSystem fun _ _ _ _ _ => ((), false)).Reachable
      ⟨eagleIndCmdRingInit wiredFrames rxdmadEntries, false, [], []⟩ :=
    .init ⟨⟨_, rfl⟩, rfl, rfl⟩
  have h1 := h0.step (RxdAction.write 0x40640807 0x00050000 0) ⟨by decide, rfl⟩
  have h2 := h1.step (RxdAction.poll true) rfl
  exact ⟨_, by decide +kernel, rxdmad_inStep _ _ h2⟩

end ClankerNPU.EagleRx.Fast
