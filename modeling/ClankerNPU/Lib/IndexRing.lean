import ClankerNPU.Lib.Circular

/-! # Rings of free indices

    A pool keeps its free indices in a ring: taking reads at one index,
    giving writes at the other. Equal indices stand for a full ring, so
    the last index is never taken. -/

open Circular

/-- A ring of stored indices. -/
structure IndexRing where
  slot : ℕ → ℕ
  takeAt : ℕ
  giveAt : ℕ

namespace IndexRing

variable {n : ℕ} {s : IndexRing}

/-- All of `0 … n-1` stored. -/
def full : IndexRing where
  slot := id
  takeAt := 0
  giveAt := 0

/-- Take an index, unless only one is left. -/
def take (n : ℕ) (s : IndexRing) : Option (ℕ × IndexRing) :=
  if s.giveAt = next (n - 1) s.takeAt then none
  else some (s.slot s.takeAt, { s with takeAt := next (n - 1) s.takeAt })

/-- Give an index back. -/
def give (n : ℕ) (s : IndexRing) (i : ℕ) : IndexRing :=
  { s with slot := Function.update s.slot s.giveAt i, giveAt := next (n - 1) s.giveAt }

/-- The stored indices, next to be taken first. -/
def contents (n : ℕ) (s : IndexRing) : List ℕ := window s.slot n s.takeAt (used n s.takeAt s.giveAt)

/-- Both indices are indices. -/
structure Ok (n : ℕ) (s : IndexRing) : Prop where
  takeAt_lt : s.takeAt < n
  giveAt_lt : s.giveAt < n

@[simp] theorem contents_full : full.contents n = List.range n := by
  unfold contents full
  rw [used, if_pos rfl, window_of_le _ (by simp)]
  simp

/-- A successful take removes the first stored index. -/
theorem Ok.take {i : ℕ} {s' : IndexRing} (h : s.Ok n) (htake : s.take n = some (i, s')) :
    s'.Ok n ∧ s.contents n = i :: s'.contents n := by
  have hn : 0 < n := by have := h.takeAt_lt; omega
  unfold IndexRing.take at htake
  split at htake
  · cases htake
  · next hne =>
    obtain ⟨rfl, rfl⟩ := Prod.mk.inj (Option.some.inj htake)
    rw [next_pred_eq_mod h.takeAt_lt] at hne ⊢
    refine ⟨⟨Nat.mod_lt _ hn, h.giveAt_lt⟩, ?_⟩
    -- more than one index is stored, as the ring's two indices differ by more
    obtain ⟨k, hk⟩ : ∃ k, used n s.takeAt s.giveAt = k + 1 :=
      ⟨used n s.takeAt s.giveAt - 1, by have := used_pos h.takeAt_lt h.giveAt_lt; omega⟩
    have hadd := add_used_mod h.takeAt_lt h.giveAt_lt
    have hk0 : 0 < k := by
      rcases Nat.eq_zero_or_pos k with rfl | hpos
      · rw [hk] at hadd
        exact absurd hadd.symm hne
      · exact hpos
    have hle := used_le (w := s.giveAt) h.takeAt_lt
    have hused : used n ((s.takeAt + 1) % n) s.giveAt = k := by
      have hgive : s.giveAt = ((s.takeAt + 1) % n + k) % n := by
        rw [mod_add_mod_eq, Nat.add_comm 1 k, ← hk, hadd]
      conv_lhs => rw [hgive]
      exact used_add_mod (Nat.mod_lt _ hn) hk0 (by omega)
    unfold contents
    rw [hused, hk, Nat.add_comm k 1, window_add, window_one _ h.takeAt_lt]
    rfl

/-- Of two or more stored indices one can be taken. -/
theorem Ok.take_isSome (h : s.Ok n) (hmore : 2 ≤ (s.contents n).length) :
    ∃ x, s.take n = some x := by
  unfold IndexRing.take
  rw [contents, length_window] at hmore
  split
  · next hlast =>
    rw [hlast, next_pred_eq_mod h.takeAt_lt,
      used_add_mod h.takeAt_lt one_pos (by have := h.takeAt_lt; omega)] at hmore
    omega
  · exact ⟨_, rfl⟩

/-- A give appends the index, when the ring has room for it. -/
theorem Ok.give (h : s.Ok n) (hroom : (s.contents n).length < n) (i : ℕ) :
    (s.give n i).Ok n ∧ (s.give n i).contents n = s.contents n ++ [i] := by
  have hn : 0 < n := by have := h.takeAt_lt; omega
  rw [contents, length_window] at hroom
  have hadd := add_used_mod h.takeAt_lt h.giveAt_lt
  unfold IndexRing.give
  rw [next_pred_eq_mod h.giveAt_lt]
  refine ⟨⟨h.takeAt_lt, Nat.mod_lt _ hn⟩, ?_⟩
  have hused : used n s.takeAt ((s.giveAt + 1) % n) = used n s.takeAt s.giveAt + 1 := by
    have hgive : (s.giveAt + 1) % n = (s.takeAt + (used n s.takeAt s.giveAt + 1)) % n := by
      rw [← hadd, Nat.mod_add_mod, Nat.add_assoc, hadd]
    rw [hgive]
    exact used_add_mod h.takeAt_lt (by omega) (by omega)
  unfold contents
  rw [hused, window_succ, hadd]
  simp only [Function.update_self]
  have hold := window_update_of_outside s.slot (r := s.takeAt) i le_rfl hroom
  rw [hadd] at hold
  rw [hold]

end IndexRing
