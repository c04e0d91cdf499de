import ClankerNPU.Hostadpt.Ring

/-! # Overlapped copies

    `eagle_txq_drain` hands up to 16 queued packets to the out ring. With
    `HAS_ASYNC_COPY` a frame's copy runs while the next one is read and
    claimed. The loop is one definition, with the way a frame is sent and
    that way's own variables as parameters. -/

namespace ClankerNPU.Hostadpt

open EagleRx (eagleTxqEntries)

/-! ## The drains -/

/-- The rx buffers as the drain reads them. -/
structure RxBufs where
  /-- `eagle_pkt_buf_addr` -/
  pktBufAddr : BitVec 32
  /-- a 32-bit load -/
  word : BitVec 32 → BitVec 32

/-- `eagle_buf_phys` -/
def RxBufs.phys (m : RxBufs) (bufId : BitVec 32) : BitVec 32 :=
  ((((bufId <<< 11) + m.pktBufAddr) &&& 0x3FFFFFFF#32) ||| 0x80000000#32) + 192#32

/-- `eagle_buf_uncached` -/
def RxBufs.uncached (m : RxBufs) (bufId : BitVec 32) : BitVec 32 :=
  ((m.pktBufAddr &&& 0x3FFFFFFF#32) ||| 0x40000000#32) + (bufId <<< 11)

/-- The three words of a packet queue entry. -/
structure TxqWords where
  w0 : BitVec 32
  w1 : BitVec 32
  w2 : BitVec 32

/-- Bit 16 of word 2 is bit 0 of the flags byte. -/
def TxqWords.valid (c : TxqWords) : Bool := c.w2 &&& 0x10000#32 ≠ 0#32

/-- The entry carries a frame: `(s32)buf_id >= 0 && seg_len != 0`. -/
def TxqWords.carries (c : TxqWords) : Bool := c.w0.msb = false ∧ c.w1 >>> 16 ≠ 0#32

/-- The frame an entry names. -/
def TxqWords.frame (m : RxBufs) (c : TxqWords) : OutFrame :=
  let flags := (c.w2 >>> 16) &&& 0xFF#32
  { bufAddr := m.phys c.w0
    pktLen := c.w1 >>> 16
    wcid := c.w1 &&& 0xFFFF#32
    amsdu := c.w2 >>> 24
    fwdType := flags >>> 2
    origLen := c.w2 &&& 0xFFFF#32
    isLast := (flags >>> 1) &&& 1#32
    info := m.word (m.uncached c.w0) }

/-- The variables of the loop; `ext` are those of the way of sending. -/
structure DrainState (X : Type*) where
  out : HostRing
  ext : X
  cell : ℕ → TxqWords
  idx : ℕ
  ids : List (BitVec 16)
  full : Bool
  /-- `dbg.rxout`, `dbg.rxoutfail` -/
  rxout : ℕ
  rxoutfail : ℕ

/-- A way to send a frame, given `left`: whether it was taken, and the
    ring and variables after. -/
abbrev Send (X : Type*) : Type _ := ℕ → OutFrame → HostRing → X → Bool × HostRing × X

/-- `eagle_txq_ridx` after an entry -/
def txqNext (idx : ℕ) : ℕ := if idx + 1 = eagleTxqEntries then 0 else idx + 1

/-- The body of the loop. -/
def drainBody {X : Type*} (m : RxBufs) (send : Send X) (left : ℕ) (s : DrainState X) :
    DrainState X :=
  let c := s.cell s.idx
  let s := if c.carries then
      let res := send left (c.frame m) s.out s.ext
      { s with
        out := res.2.1
        ext := res.2.2
        ids := s.ids ++ [c.w0.setWidth 16]
        full := !res.1
        rxout := s.rxout + 1
        rxoutfail := if res.1 then s.rxoutfail else s.rxoutfail + 1 }
    else s
  { s with cell := Function.update s.cell s.idx ⟨0xFFFFFFFF#32, 0#32, 0#32⟩, idx := txqNext s.idx }

/-- `do ... while (--left != 0 && full == 0)` with `left` rounds to go. -/
def drainLoop {X : Type*} (m : RxBufs) (send : Send X) : ℕ → DrainState X → DrainState X
  | 0, s => s
  | left + 1, s =>
    if (s.cell s.idx).valid then
      let s := drainBody m send (left + 1) s
      if s.full then s else drainLoop m send left s
    else s

/-- `buf_id_return_n(ids, n)` -/
def DrainState.giveBack {X : Type*} (s : DrainState X) : DrainState X :=
  { s with out := s.ids.foldl HostRing.free s.out }

/-- `EAGLE_DRAIN_BATCH` -/
def drainBatch : ℕ := 16

/-- The state a drain starts in. -/
def drainStart {X : Type*} (out : HostRing) (ext : X) (cell : ℕ → TxqWords)
    (idx rxout rxoutfail : ℕ) : DrainState X :=
  ⟨out, ext, cell, idx, [], false, rxout, rxoutfail⟩

/-- `host_ring_submit` frame by frame. -/
def sendSync : Send Unit := fun _ f r _ =>
  let res := hostRingSubmit f r
  (res.1, res.2, ())

/-- `eagle_txq_drain` without `HAS_ASYNC_COPY`. -/
def eagleTxqDrainSync (m : RxBufs) (out : HostRing) (cell : ℕ → TxqWords)
    (idx rxout rxoutfail : ℕ) : DrainState Unit :=
  (drainLoop m sendSync drainBatch (drainStart out () cell idx rxout rxoutfail)).giveBack

/-- The variables of the overlapped send: `pend` is `o[k ^ 1]` while it is
    set. -/
structure AsyncOut where
  pend : Option HostOut
  oidx : ℕ
  room : ℕ

/-- The pending frame, if there is one, is finished. -/
def finishPend (pend : Option HostOut) (r : HostRing) : HostRing :=
  match pend with
  | some o => hostOutFinish o r
  | none => r

/-- One room check for the batch, one frame when short. -/
def batchRoom (counting : Bool) (left : ℕ) (r : HostRing) (x : AsyncOut) : AsyncOut :=
  match x.pend with
  | none =>
    let oidx := r.idx
    let room := hostOutRoom counting r oidx left
    ⟨none, oidx, if room = 0 then hostOutRoom counting r oidx 1 else room⟩
  | some _ => x

/-- The overlapped send. -/
def sendAsync (counting : Bool) : Send AsyncOut := fun left f r x =>
  let x := batchRoom counting left r x
  if x.room ≠ 0 then
    let res := hostOutStart x.pend x.oidx f r
    (true, res.2, ⟨some res.1, res.1.next, x.room - 1⟩)
  else
    let res := hostRingSubmit f (finishPend x.pend r)
    (res.1, res.2, ⟨none, x.oidx, x.room⟩)

/-- `eagle_txq_drain` with `HAS_ASYNC_COPY`. -/
def eagleTxqDrain (counting : Bool) (m : RxBufs) (out : HostRing) (cell : ℕ → TxqWords)
    (idx rxout rxoutfail : ℕ) : DrainState AsyncOut :=
  let s := drainLoop m (sendAsync counting) drainBatch
    (drainStart out ⟨none, 0, 0⟩ cell idx rxout rxoutfail)
  { s with out := finishPend s.ext.pend s.out }.giveBack

/-! ## The two ways of sending -/

variable {r ra rs : HostRing} {x : AsyncOut} {f : OutFrame} {k left : ℕ}

/-- Rings that differ in their traces only. -/
def SameRing (r r' : HostRing) : Prop := ∃ t, r' = { r with trace := t }

theorem SameRing.refl (r : HostRing) : SameRing r r := ⟨r.trace, rfl⟩

theorem SameRing.submitted (h : SameRing r rs) : SameRing (submitted f r) (submitted f rs) := by
  obtain ⟨t, rfl⟩ := h
  exact ⟨_, rfl⟩

theorem SameRing.freeRun (h : SameRing r rs) (hr : FreeRun rs k) : FreeRun r k := by
  obtain ⟨t, rfl⟩ := h
  exact ⟨hr.idx_lt, hr.le, hr.free⟩

/-- The overlapped ring, once its pending frame is finished, is the
    synchronous one; the room left was really there. -/
structure Follows (ra : HostRing) (x : AsyncOut) (rs : HostRing) (k : ℕ) : Prop where
  same : SameRing (finishPend x.pend ra) rs
  run : FreeRun rs k
  idle : x.pend = none → ra.flying = none
  oidx : x.pend.isSome → x.oidx = rs.idx
  room : x.pend.isSome → x.room ≠ 0 → x.room + 2 ≤ k

theorem wait_desc (r : HostRing) : r.wait.desc = r.desc := by
  unfold HostRing.wait
  split <;> rfl

theorem wait_flying (r : HostRing) : r.wait.flying = none := by
  unfold HostRing.wait
  split
  · assumption
  · rfl

/-- Finishing a frame leaves the host's buffer addresses alone. -/
theorem finishPend_d3 (pend : Option HostOut) (r : HostRing) (slot : ℕ) :
    ((finishPend pend r).desc slot).d3 = (r.desc slot).d3 := by
  cases pend with
  | none => rfl
  | some o =>
    show (Function.update r.wait.desc o.slot _ slot).d3 = _
    rw [wait_desc]
    by_cases hslot : slot = o.slot
    · subst hslot
      rw [Function.update_self]
    · rw [Function.update_of_ne hslot]

theorem hostOutStart_eq (pend : Option HostOut) (idx : ℕ) (f : OutFrame) (r : HostRing) :
    hostOutStart pend idx f r =
      (⟨idx, (r.desc idx).d3, outNext idx, f.word0, f.word1, f.info⟩,
        (finishPend pend r).copy ⟨idx, f.bufAddr, (r.desc idx).d3, f.startLen⟩) := by
  unfold hostOutStart finishPend
  cases pend <;> rfl

/-- Starting a frame and finishing it later is submitting it. -/
theorem finish_start {pend : Option HostOut} {oidx : ℕ} (hidx : oidx = (finishPend pend ra).idx) :
    finishPend (some (hostOutStart pend oidx f ra).1) (hostOutStart pend oidx f ra).2
      = submitted f (finishPend pend ra) := by
  rw [hostOutStart_eq, f.startLen_eq, ← finishPend_d3 pend ra oidx, hidx]
  rfl

/-- After the room check the claimed room is there. -/
theorem Follows.batchRoom (h : Follows ra x rs k) (hleft : left + 1 < hostadptRingSize)
    (hpos : 0 < left) :
    (batchRoom false left ra x).pend = x.pend ∧ (batchRoom false left ra x).oidx = rs.idx ∧
      ((batchRoom false left ra x).room ≠ 0 → (batchRoom false left ra x).room + 2 ≤ k) := by
  unfold Hostadpt.batchRoom
  cases hp : x.pend with
  | none =>
    have hsame : SameRing ra rs := by
      have := h.same
      rwa [hp] at this
    have hrun := hsame.freeRun h.run
    have hidx : ra.idx = rs.idx := by
      obtain ⟨t, rfl⟩ := hsame
      rfl
    dsimp only
    rw [hrun.room hleft, hrun.room (by decide)]
    refine ⟨rfl, hidx, ?_⟩
    split_ifs <;> omega
  | some o =>
    have hsome : x.pend.isSome := by rw [hp]; rfl
    exact ⟨hp, h.oidx hsome, h.room hsome⟩

/-- One frame sent either way. -/
theorem Follows.send (h : Follows ra x rs k) (hleft : left + 1 < hostadptRingSize)
    (hpos : 0 < left) (f : OutFrame) :
    ∃ k', (sendAsync false left f ra x).1 = (sendSync left f rs ()).1 ∧
      Follows (sendAsync false left f ra x).2.1 (sendAsync false left f ra x).2.2
        (sendSync left f rs ()).2.1 k' := by
  obtain ⟨hpend, hoidx, hroom⟩ := h.batchRoom hleft hpos
  have hsame := h.same
  have hidx : (finishPend x.pend ra).idx = rs.idx := by
    obtain ⟨t, ht⟩ := hsame
    rw [ht]
  unfold sendAsync sendSync
  dsimp only
  rw [hpend]
  by_cases hnz : (Hostadpt.batchRoom false left ra x).room ≠ 0
  · -- the copy starts; the synchronous submit finds room too
    have hk := hroom hnz
    have htaken : 2 < k := by omega
    rw [if_pos hnz, h.run.submit_accepted htaken]
    refine ⟨k - 1, rfl, ?_, h.run.submitted (by omega), nofun, ?_, ?_⟩
    · dsimp only
      rw [finish_start (hoidx.trans hidx.symm)]
      exact hsame.submitted
    · intro _
      dsimp only
      rw [hostOutStart_eq, hoidx]
      rfl
    · intro _ hleft'
      dsimp only at hleft' ⊢
      omega
  · -- no room claimed: the pending frame first, then a plain submit
    rw [if_neg hnz]
    have hrun := hsame.freeRun h.run
    have hquiet : (finishPend x.pend ra).flying = none := by
      cases hp : x.pend with
      | none => exact h.idle hp
      | some o => exact wait_flying _
    -- then both submits are the same, on the same ring
    by_cases htaken : 2 < k
    · rw [h.run.submit_accepted htaken, hrun.submit_accepted htaken]
      exact ⟨k - 1, rfl, hsame.submitted, h.run.submitted (by omega), fun _ => wait_flying _,
        nofun, nofun⟩
    · rw [h.run.submit_refused (by omega), hrun.submit_refused (by omega)]
      exact ⟨k, rfl, hsame, h.run, fun _ => hquiet, nofun, nofun⟩

/-! ## The loops -/

/-- The two drains side by side. -/
structure Matches (a : DrainState AsyncOut) (s : DrainState Unit) (k : ℕ) : Prop where
  follows : Follows a.out a.ext s.out k
  cell : a.cell = s.cell
  idx : a.idx = s.idx
  ids : a.ids = s.ids
  full : a.full = s.full
  rxout : a.rxout = s.rxout
  rxoutfail : a.rxoutfail = s.rxoutfail

variable {a : DrainState AsyncOut} {s : DrainState Unit} {m : RxBufs}

theorem Matches.body (h : Matches a s k) (hleft : left + 1 < hostadptRingSize) (hpos : 0 < left) :
    ∃ k', Matches (drainBody m (sendAsync false) left a) (drainBody m sendSync left s) k' := by
  obtain ⟨hfollows, hcell, hidx, hids, hfull, hrxout, hrxoutfail⟩ := h
  unfold drainBody
  dsimp only
  rw [hcell, hidx]
  by_cases hcarries : (s.cell s.idx).carries = true
  · obtain ⟨k', hok, hnext⟩ := hfollows.send hleft hpos ((s.cell s.idx).frame m)
    rw [if_pos hcarries, if_pos hcarries]
    refine ⟨k', hnext, ?_, ?_, ?_, ?_, ?_, ?_⟩ <;> dsimp only
    · rw [hids]
    · rw [hok]
    · rw [hrxout]
    · rw [hok, hrxoutfail]
  · rw [if_neg hcarries, if_neg hcarries]
    refine ⟨k, hfollows, ?_, ?_, hids, hfull, hrxout, hrxoutfail⟩ <;> dsimp only
    · rw [hcell, hidx]
    · rw [hidx]

theorem Matches.loop (h : Matches a s k) (hleft : left + 1 < hostadptRingSize) :
    ∃ k', Matches (drainLoop m (sendAsync false) left a) (drainLoop m sendSync left s) k' := by
  induction left generalizing a s k with
  | zero => exact ⟨k, h⟩
  | succ left ih =>
    unfold drainLoop
    rw [h.cell, h.idx]
    by_cases hvalid : (s.cell s.idx).valid = true
    · rw [if_pos hvalid, if_pos hvalid]
      obtain ⟨k', hbody⟩ := h.body (m := m) hleft (Nat.succ_pos left)
      dsimp only
      rw [hbody.full]
      by_cases hfull : (drainBody m sendSync (left + 1) s).full = true
      · rw [if_pos hfull, if_pos hfull]
        exact ⟨k', hbody⟩
      · rw [if_neg hfull, if_neg hfull]
        exact ih hbody (by omega)
    · rw [if_neg hvalid, if_neg hvalid]
      exact ⟨k, h⟩

/-! ## The order of events -/

/-- Copies end after they start, a slot's word 0 is stored after its copy
    ended, and a buffer id is given back after all copies ended. -/
inductive InOrder : List OutEvent → Prop where
  | nil : InOrder []
  | start {t : List OutEvent} (c : Copy) : InOrder t → InOrder (t ++ [.start c])
  | done {t : List OutEvent} {c : Copy} : InOrder t → .start c ∈ t → InOrder (t ++ [.done c])
  | ready {t : List OutEvent} {c : Copy} : InOrder t → .done c ∈ t →
      InOrder (t ++ [.ready c.slot])
  | freed {t : List OutEvent} (id : BitVec 16) : InOrder t →
      (∀ c, .start c ∈ t → .done c ∈ t) → InOrder (t ++ [.freed id])

/-- The trace so far, and the copy under way. -/
structure Tidy (r : HostRing) : Prop where
  order : InOrder r.trace
  done : ∀ c, .start c ∈ r.trace → .done c ∈ r.trace ∨ r.flying = some c
  started : ∀ c, r.flying = some c → .start c ∈ r.trace

theorem Tidy.copy (h : Tidy r) (hidle : r.flying = none) (c : Copy) : Tidy (r.copy c) := by
  refine ⟨h.order.start c, ?_, ?_⟩
  · intro c' hc'
    rcases List.mem_append.mp hc' with hold | hnew
    · rcases h.done c' hold with hdone | hfly
      · exact .inl (List.mem_append_left _ hdone)
      · rw [hidle] at hfly
        cases hfly
    · obtain ⟨rfl⟩ := List.mem_singleton.mp hnew
      exact .inr rfl
  · intro c' hc'
    obtain rfl := Option.some.inj hc'
    exact List.mem_append_right _ (List.mem_singleton.mpr rfl)

theorem Tidy.wait (h : Tidy r) : Tidy r.wait := by
  unfold HostRing.wait
  split
  · exact h
  · next c hfly =>
    refine ⟨h.order.done (h.started c hfly), ?_, nofun⟩
    intro c' hc'
    left
    rcases List.mem_append.mp hc' with hold | hnew
    · rcases h.done c' hold with hdone | hfly'
      · exact List.mem_append_left _ hdone
      · obtain rfl := Option.some.inj (hfly.symm.trans hfly')
        exact List.mem_append_right _ (List.mem_singleton.mpr rfl)
    · exact absurd (List.mem_singleton.mp hnew) nofun

theorem Tidy.publish (h : Tidy r) {c : Copy} (hdone : .done c ∈ r.trace) (w2 w1 w0 : BitVec 32) :
    Tidy (r.publish c.slot w2 w1 w0) := by
  refine ⟨h.order.ready hdone, ?_, ?_⟩
  · intro c' hc'
    rcases List.mem_append.mp hc' with hold | hnew
    · exact (h.done c' hold).imp_left (List.mem_append_left _)
    · exact absurd (List.mem_singleton.mp hnew) nofun
  · intro c' hc'
    exact List.mem_append_left _ (h.started c' hc')

theorem Tidy.free (h : Tidy r) (hidle : r.flying = none) (id : BitVec 16) : Tidy (r.free id) := by
  have hall : ∀ c, .start c ∈ r.trace → .done c ∈ r.trace := by
    intro c hc
    rcases h.done c hc with hdone | hfly
    · exact hdone
    · rw [hidle] at hfly
      cases hfly
  refine ⟨h.order.freed id hall, ?_, ?_⟩
  · intro c hc
    rcases List.mem_append.mp hc with hold | hnew
    · exact .inl (List.mem_append_left _ (hall c hold))
    · exact absurd (List.mem_singleton.mp hnew) nofun
  · intro c hc
    exact List.mem_append_left _ (h.started c hc)

theorem Tidy.setIdx (h : Tidy r) (idx : ℕ) : Tidy { r with idx := idx } :=
  ⟨h.order, h.done, h.started⟩

/-- A copy waited for is done. -/
theorem done_wait {c : Copy} (h : r.flying = some c) : .done c ∈ r.wait.trace := by
  unfold HostRing.wait
  rw [h]
  exact List.mem_append_right _ (List.mem_singleton.mpr rfl)

theorem Tidy.submitted (h : Tidy r) (hidle : r.flying = none) (f : OutFrame) :
    Tidy (submitted f r) :=
  ((h.copy hidle _).wait.publish (done_wait rfl) _ _ _).setIdx _

theorem Tidy.hostRingSubmit (h : Tidy r) (hidle : r.flying = none) (f : OutFrame) :
    Tidy (hostRingSubmit f r).2 := by
  rcases hostRingSubmit_cases f r with hno | hyes
  · rw [hno]
    exact h
  · rw [hyes]
    exact h.submitted hidle f

/-- The overlapped send keeps one copy under way, for the pending slot. -/
structure AsyncTidy (r : HostRing) (x : AsyncOut) : Prop where
  tidy : Tidy r
  idle : x.pend = none → r.flying = none
  pending : ∀ o, x.pend = some o → ∃ c, r.flying = some c ∧ c.slot = o.slot

theorem AsyncTidy.finishPend (h : AsyncTidy r x) :
    Tidy (finishPend x.pend r) ∧ (finishPend x.pend r).flying = none := by
  cases hp : x.pend with
  | none => exact ⟨h.tidy, h.idle hp⟩
  | some o =>
    obtain ⟨c, hfly, hslot⟩ := h.pending o hp
    refine ⟨?_, wait_flying r⟩
    have hpub := h.tidy.wait.publish (done_wait hfly) o.w2 o.w1 o.w0
    rw [hslot] at hpub
    exact hpub.setIdx o.next

theorem AsyncTidy.send (h : AsyncTidy r x) (counting : Bool) (left : ℕ) (f : OutFrame) :
    AsyncTidy (sendAsync counting left f r x).2.1 (sendAsync counting left f r x).2.2 := by
  obtain ⟨htidy, hidle⟩ := h.finishPend
  have hpend : (batchRoom counting left r x).pend = x.pend := by
    unfold batchRoom
    cases hp : x.pend with
    | none => rfl
    | some o => exact hp
  unfold sendAsync
  dsimp only
  rw [hpend]
  by_cases hnz : (batchRoom counting left r x).room ≠ 0
  · rw [if_pos hnz, hostOutStart_eq]
    refine ⟨htidy.copy hidle _, nofun, ?_⟩
    intro o ho
    obtain rfl := Option.some.inj ho
    exact ⟨_, rfl, rfl⟩
  · rw [if_neg hnz]
    refine ⟨htidy.hostRingSubmit hidle f, fun _ => ?_, nofun⟩
    dsimp only
    rcases hostRingSubmit_cases f (Hostadpt.finishPend x.pend r) with hno | hyes
    · rw [hno]
      exact hidle
    · rw [hyes]
      exact wait_flying _

theorem AsyncTidy.loop (h : AsyncTidy a.out a.ext) (counting : Bool) :
    AsyncTidy (drainLoop m (sendAsync counting) left a).out
      (drainLoop m (sendAsync counting) left a).ext := by
  induction left generalizing a with
  | zero => exact h
  | succ left ih =>
    have hbody : AsyncTidy (drainBody m (sendAsync counting) (left + 1) a).out
        (drainBody m (sendAsync counting) (left + 1) a).ext := by
      unfold drainBody
      dsimp only
      split
      · exact h.send counting _ _
      · exact h
    unfold drainLoop
    dsimp only
    split
    · split
      · exact hbody
      · exact ih hbody
    · exact h

theorem foldl_free_tidy (h : Tidy r) (hidle : r.flying = none) (ids : List (BitVec 16)) :
    Tidy (ids.foldl HostRing.free r) ∧ (ids.foldl HostRing.free r).flying = none := by
  induction ids generalizing r with
  | nil => exact ⟨h, hidle⟩
  | cons id ids ih => exact ih (h.free hidle id) hidle

theorem foldl_free_same (h : SameRing r rs) (ids : List (BitVec 16)) :
    SameRing (ids.foldl HostRing.free r) (ids.foldl HostRing.free rs) := by
  induction ids generalizing r rs with
  | nil => exact h
  | cons id ids ih =>
    apply ih
    obtain ⟨t, rfl⟩ := h
    exact ⟨_, rfl⟩

/-! ## Overlapped and synchronous drains -/

/-- The overlapped drain did what the synchronous one does, in order. -/
structure SameDrain (a : DrainState AsyncOut) (s : DrainState Unit) : Prop where
  /-- out-ring words, out index and copied bytes -/
  ring : SameRing a.out s.out
  /-- the queue's entries and read index -/
  cell : a.cell = s.cell
  idx : a.idx = s.idx
  /-- the frames taken and refused, and the ids given back -/
  ids : a.ids = s.ids
  rxout : a.rxout = s.rxout
  rxoutfail : a.rxoutfail = s.rxoutfail
  /-- ready words and ids wait for their copies -/
  order : InOrder a.out.trace
  /-- no copy is left under way -/
  idle : a.out.flying = none

theorem eagleTxqDrain_eq_sync (m : RxBufs) (out : HostRing) (k : ℕ) (cell : ℕ → TxqWords)
    (idx rxout rxoutfail : ℕ) (hrun : FreeRun out k) (hidle : out.flying = none)
    (htrace : out.trace = []) :
    SameDrain (eagleTxqDrain false m out cell idx rxout rxoutfail)
      (eagleTxqDrainSync m out cell idx rxout rxoutfail) := by
  have hstart : Matches (drainStart out ⟨none, 0, 0⟩ cell idx rxout rxoutfail)
      (drainStart out () cell idx rxout rxoutfail) k :=
    ⟨⟨.refl out, hrun, fun _ => hidle, nofun, nofun⟩, rfl, rfl, rfl, rfl, rfl, rfl⟩
  have htidy : AsyncTidy out ⟨none, 0, 0⟩ := by
    refine ⟨⟨?_, ?_, ?_⟩, fun _ => hidle, nofun⟩
    · rw [htrace]
      exact .nil
    · intro c hc
      rw [htrace] at hc
      cases hc
    · intro c hc
      rw [hidle] at hc
      cases hc
  obtain ⟨k', hloop⟩ := hstart.loop (m := m) (show drainBatch + 1 < hostadptRingSize by decide)
  let start : DrainState AsyncOut := drainStart out ⟨none, 0, 0⟩ cell idx rxout rxoutfail
  have hasync : AsyncTidy (drainLoop m (sendAsync false) drainBatch start).out
      (drainLoop m (sendAsync false) drainBatch start).ext :=
    AsyncTidy.loop (m := m) (a := start) htidy false
  obtain ⟨hfin, hquiet⟩ := hasync.finishPend
  unfold eagleTxqDrain eagleTxqDrainSync DrainState.giveBack
  dsimp only
  rw [hloop.ids]
  obtain ⟨hend, hidle'⟩ := foldl_free_tidy hfin hquiet (drainLoop m sendSync drainBatch
    (drainStart out () cell idx rxout rxoutfail)).ids
  exact ⟨foldl_free_same hloop.follows.same _, hloop.cell, hloop.idx, rfl, hloop.rxout,
    hloop.rxoutfail, hend.order, hidle'⟩

/-- A ring the host has emptied, at its last slot but one. -/
def emptyRing : HostRing where
  desc := fun i => ⟨0, 0, 0, BitVec.ofNat 32 (0x90000000 + 2048 * i)⟩
  idx := 510
  bufs := fun _ => 7
  host := fun _ => 0
  flying := none
  trace := []

theorem emptyRing_freeRun : FreeRun emptyRing 512 := by
  refine ⟨by decide, le_rfl, fun j hj => iff_of_true ?_ hj⟩
  show decide ((0 : BitVec 32) &&& 1#32 ≠ 0#32) = false
  decide

/-- Three queued frames of 78 bytes. -/
def threeFrames : ℕ → TxqWords := fun i =>
  if i < 3 then ⟨5 + BitVec.ofNat 32 i, 0x004E0001, 0x0401004E⟩ else ⟨0, 0, 0⟩

/-- They go out across the end of the ring. -/
theorem eagleTxqDrain_eq_sync_wrap :
    (eagleTxqDrain false ⟨0x88000000, fun _ => 0⟩ emptyRing threeFrames 0 0 0).out.idx = 1 ∧
      SameDrain (eagleTxqDrain false ⟨0x88000000, fun _ => 0⟩ emptyRing threeFrames 0 0 0)
        (eagleTxqDrainSync ⟨0x88000000, fun _ => 0⟩ emptyRing threeFrames 0 0 0) :=
  ⟨by decide +kernel, eagleTxqDrain_eq_sync _ _ _ _ _ _ _ emptyRing_freeRun rfl rfl⟩

end ClankerNPU.Hostadpt
