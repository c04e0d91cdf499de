import ClankerNPU.EagleTx.Room

/-! # The search for room

    `eagle_tx_ring_room` looks at one slot and, unless that is handed
    back, searches for the last one that is. The chip goes on handing
    slots back meanwhile, so every look sees a ring of its own. -/

namespace ClankerNPU.EagleTx.Room

/-! ## The search -/

/-- The word at +4 of each slot, as look `t` sees it. -/
abbrev Looks := ℕ → ℕ → BitVec 32

/-- `(s32)REG32(ring + (((cpu + count - 1) & EAGLE_TX_RING_MASK) << 4) + 4) < 0` -/
def Looks.back (ring : Looks) (t cpu count : ℕ) : Prop :=
  (ring t ((cpu + count - 1) &&& eagleTxRingMask)).toInt < 0

instance (ring : Looks) (t cpu count : ℕ) : Decidable (ring.back t cpu count) :=
  inferInstanceAs (Decidable (_ < _))

/-- The binary search from look `t` on: its result and the next look. -/
def roomLooks (ring : Looks) (cpu t lo hi : ℕ) : ℕ × ℕ :=
  if lo < hi then
    let mid := (lo + hi + 1) / 2
    if ring.back t cpu mid then roomLooks ring cpu (t + 1) mid hi
    else roomLooks ring cpu (t + 1) lo (mid - 1)
  else (lo, t)
termination_by hi - lo

/-- `eagle_tx_ring_room`; its first look is look 1 -/
def eagleTxRingRoomLooks (ring : Looks) (cpu max : ℕ) : ℕ × ℕ :=
  if ring.back 1 cpu max then (max, 2) else roomLooks ring cpu 2 0 (max - 1)

/-! ## A ring that hands slots back -/

/-- At look `t` the slots handed back are the `n t` from the cpu index on. -/
structure HandsBack (ring : Looks) (cpu : ℕ) (n : ℕ → ℕ) : Prop where
  cpu_lt : cpu < ringSize
  back : ∀ t slot, slot < ringSize →
    ((ring t slot).toInt < 0 ↔ (slot + ringSize - cpu) % ringSize < n t)
  grows : Monotone n

variable {ring : Looks} {cpu max t lo hi count : ℕ} {n : ℕ → ℕ}

theorem and_eagleTxRingMask (slot : ℕ) : slot &&& eagleTxRingMask = slot % ringSize :=
  Nat.and_two_pow_sub_one_eq_mod slot 11

/-- A look tells whether `count` slots are free. -/
theorem HandsBack.back_iff (h : HandsBack ring cpu n) (hpos : 1 ≤ count)
    (hcount : count ≤ eagleTxRingMask) : ring.back t cpu count ↔ count ≤ n t := by
  have hcpu := h.cpu_lt
  have hlt : (cpu + count - 1) % ringSize < ringSize := Nat.mod_lt _ (by decide)
  have hdist : ((cpu + count - 1) % ringSize + ringSize - cpu) % ringSize = count - 1 := by
    unfold ringSize at *
    unfold eagleTxRingMask at hcount
    omega
  unfold Looks.back
  rw [and_eagleTxRingMask, h.back t _ hlt, hdist]
  omega

/-- The search ends no lower than what was free at the start and no higher
    than what is free at the end: a look that finds its slot keeps `lo`
    at what has been seen free, and one that does not keeps `hi` at what
    was free before any look. -/
theorem HandsBack.roomLooks_between (h : HandsBack ring cpu n) {t lo hi : ℕ} (hhi : hi ≤ eagleTxRingMask)
    (hle : lo ≤ hi) (hlow : lo ≤ n t) (hhigh : n 0 ≤ hi) :
    n 0 ≤ (roomLooks ring cpu t lo hi).1 ∧
      (roomLooks ring cpu t lo hi).1 ≤ n (roomLooks ring cpu t lo hi).2 ∧
      (roomLooks ring cpu t lo hi).1 ≤ hi := by
  fun_induction roomLooks ring cpu t lo hi with
  | case1 t lo hi hlt mid hback ih =>
    have hmid : mid = (lo + hi + 1) / 2 := rfl
    have hfree : mid ≤ n t := (h.back_iff (by omega) (by omega)).mp hback
    exact ih hhi (by omega) (hfree.trans (h.grows (Nat.le_succ t))) hhigh
  | case2 t lo hi hlt mid hback ih =>
    have hmid : mid = (lo + hi + 1) / 2 := rfl
    have htaken : ¬mid ≤ n t := mt (h.back_iff (by omega) (by omega)).mpr hback
    have hstart : n 0 ≤ n t := h.grows (Nat.zero_le t)
    have hnext : n t ≤ n (t + 1) := h.grows (Nat.le_succ t)
    obtain ⟨hlower, hupper, hend⟩ := ih (by omega) (by omega) (hlow.trans hnext) (by omega)
    exact ⟨hlower, hupper, by omega⟩
  | case3 t lo hi hlt => exact ⟨by omega, hlow, hle⟩

/-- The room found lies between what was free when the search began and
    what is free when it ends. -/
theorem eagleTxRingRoomLooks_between (h : HandsBack ring cpu n) (hpos : 1 ≤ max)
    (hmax : max ≤ eagleTxRingMask) :
    min (n 0) max ≤ (eagleTxRingRoomLooks ring cpu max).1 ∧
      (eagleTxRingRoomLooks ring cpu max).1 ≤
        min (n (eagleTxRingRoomLooks ring cpu max).2) max ∧
      (n (eagleTxRingRoomLooks ring cpu max).2 = n 0 →
        (eagleTxRingRoomLooks ring cpu max).1 = min (n 0) max) := by
  have hfirst := h.back_iff (t := 1) hpos hmax
  have hstart : n 0 ≤ n 1 := h.grows (Nat.zero_le 1)
  unfold eagleTxRingRoomLooks
  by_cases hback : ring.back 1 cpu max
  · have hend : max ≤ n 2 := (hfirst.mp hback).trans (h.grows (Nat.le_succ 1))
    rw [if_pos hback]
    show min (n 0) max ≤ max ∧ max ≤ min (n 2) max ∧ (n 2 = n 0 → max = min (n 0) max)
    omega
  · have hshort : ¬max ≤ n 1 := mt hfirst.mpr hback
    obtain ⟨hlower, hupper, hend⟩ :=
      h.roomLooks_between (show max - 1 ≤ eagleTxRingMask by omega) (Nat.zero_le (max - 1))
        (Nat.zero_le (n 2)) (by omega)
    rw [if_neg hback]
    omega

/-- A ring whose last 2 slots and first 3 are handed back, one more at each
    look. -/
def ring2046 : Looks := fun t slot =>
  if (slot + ringSize - 2046) % ringSize < 5 + t then 0x80000000 else 0

theorem ring2046_handsBack : HandsBack ring2046 2046 (fun t => 5 + t) where
  cpu_lt := by decide
  back t slot hslot := by
    unfold ring2046
    split_ifs with hback
    · exact iff_of_true (by decide) hback
    · exact iff_of_false (by decide) hback
  grows t t' htt' := Nat.add_le_add_left htt' 5

theorem ring2046_between :
    HandsBack ring2046 2046 (fun t => 5 + t) ∧
      min 5 40 ≤ (eagleTxRingRoomLooks ring2046 2046 40).1 ∧
      (eagleTxRingRoomLooks ring2046 2046 40).1 ≤
        min (5 + (eagleTxRingRoomLooks ring2046 2046 40).2) 40 :=
  have hroom := eagleTxRingRoomLooks_between ring2046_handsBack (show 1 ≤ 40 by decide) (by decide)
  ⟨ring2046_handsBack, hroom.1, hroom.2.1⟩

/-! ## A ring that stands still -/

/-- What the pass of core 2 takes for the slots handed back. -/
def seenBack (words : ℕ → BitVec 32) (slot : ℕ) : Bool := (words slot).toInt < 0

theorem back_still {words : ℕ → BitVec 32} :
    Looks.back (fun _ => words) t cpu count ↔
      seenBack words ((cpu + count - 1) % ringSize) = true := by
  rw [seenBack, decide_eq_true_iff, Looks.back, and_eagleTxRingMask]

theorem roomLooks_still {words : ℕ → BitVec 32} :
    (roomLooks (fun _ => words) cpu t lo hi).1 = roomSearch (seenBack words) cpu lo hi := by
  fun_induction roomLooks (fun _ => words) cpu t lo hi with
  | case1 t lo hi hlt mid hback ih =>
    rw [roomSearch, if_pos hlt, if_pos (back_still.mp hback)]
    exact ih
  | case2 t lo hi hlt mid hback ih =>
    rw [roomSearch, if_pos hlt, if_neg (mt back_still.mpr hback)]
    exact ih
  | case3 t lo hi hlt => rw [roomSearch, if_neg hlt]

/-- While no slot is handed back the room is the one a pass computes. -/
theorem eagleTxRingRoomLooks_still (words : ℕ → BitVec 32) (cpu max : ℕ) :
    (eagleTxRingRoomLooks (fun _ => words) cpu max).1
      = eagleTxRingRoomOf (seenBack words) cpu max := by
  unfold eagleTxRingRoomLooks eagleTxRingRoomOf
  by_cases hback : Looks.back (fun _ => words) 1 cpu max
  · rw [if_pos hback, if_pos (back_still.mp hback)]
  · rw [if_neg hback, if_neg (mt back_still.mpr hback)]
    exact roomLooks_still

end ClankerNPU.EagleTx.Room
