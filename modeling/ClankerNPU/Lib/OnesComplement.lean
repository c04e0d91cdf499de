import Mathlib.Algebra.Order.Ring.Nat
import Mathlib.Tactic.Common

/-! # One's complement sums

    A 16-bit one's complement sum is a plain sum whose carries are added
    back until 16 bits are left. It is 0xFFFF exactly when the plain sum
    is a positive multiple of 0xFFFF. -/

namespace OnesComplement

/-- End-around carries until 16 bits are left. -/
def fold (s : ℕ) : ℕ :=
  if s < 65536 then s else fold (s % 65536 + s / 65536)
termination_by s
decreasing_by omega

theorem fold_of_lt {s : ℕ} (h : s < 65536) : fold s = s := by
  rw [fold, if_pos h]

theorem fold_lt (s : ℕ) : fold s < 65536 := by
  induction s using fold.induct with
  | case1 s h => rwa [fold_of_lt h]
  | case2 s h ih =>
    rw [fold, if_neg h]
    exact ih

theorem fold_mod (s : ℕ) : fold s % 65535 = s % 65535 := by
  induction s using fold.induct with
  | case1 s h => rw [fold_of_lt h]
  | case2 s h ih =>
    rw [fold, if_neg h, ih]
    omega

theorem fold_pos {s : ℕ} (hs : 0 < s) : 0 < fold s := by
  induction s using fold.induct with
  | case1 s h => rwa [fold_of_lt h]
  | case2 s h ih =>
    rw [fold, if_neg h]
    exact ih (by omega)

theorem fold_eq_iff {s : ℕ} (hs : 0 < s) : fold s = 65535 ↔ s % 65535 = 0 := by
  have hlt := fold_lt s
  have hmod := fold_mod s
  have hpos := fold_pos hs
  omega

end OnesComplement
