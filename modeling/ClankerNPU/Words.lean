import Mathlib.Algebra.Order.Ring.Int
import Mathlib.Algebra.Order.Ring.Nat

/-! # Machine words

    C integers are modelled by `ℕ` and `ℤ`; a conversion to a fixed
    width is explicit and carries the C type's name. -/

namespace ClankerNPU

/-- `(u16)x` -/
def u16 (x : ℤ) : ℕ := (x % 2 ^ 16).toNat

/-- `(u32)x` -/
def u32 (x : ℤ) : ℕ := (x % 2 ^ 32).toNat

/-- `(s16)x` of a 16-bit word -/
def s16 (x : ℕ) : ℤ := if x % 2 ^ 16 < 2 ^ 15 then (x % 2 ^ 16 : ℕ) else (x % 2 ^ 16 : ℕ) - 2 ^ 16

/-- `(s32)x` -/
def s32 (x : ℤ) : ℤ := (x + 2 ^ 31) % 2 ^ 32 - 2 ^ 31

/-- A value within 16 bits is not changed. -/
theorem u16_eq {x : ℤ} {n : ℕ} (h : x = n) (hn : n < 2 ^ 16) : u16 x = n := by
  unfold u16
  omega

theorem u16_natCast (x : ℕ) : u16 x = x % 2 ^ 16 := by
  unfold u16
  omega

theorem u16_natCast_of_lt {x : ℕ} (h : x < 2 ^ 16) : u16 x = x := by
  rw [u16_natCast, Nat.mod_eq_of_lt h]

theorem u32_mod_u16 (x : ℤ) : u32 x % 2 ^ 16 = u16 x := by
  unfold u32 u16
  omega

theorem s16_of_lt {x : ℕ} (h : x < 2 ^ 15) : s16 x = x := by
  unfold s16
  rw [Nat.mod_eq_of_lt (by omega), if_pos h]

end ClankerNPU
