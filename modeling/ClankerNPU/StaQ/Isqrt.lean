import ClankerNPU.StaQ.Spacing

/-! # The square root in 32-bit words

    `npu_isqrt` shifts one bit down from `1 << 30`, first until it is not
    above the argument, then through the loop that takes it into the
    root. A loop here has a number of passes it may make, and the sums it
    computes are written down as they would be without a carry lost. -/

namespace ClankerNPU.StaQ

/-! ## The loops -/

/-- `while (b > x) b >>= 2;` -/
def isqrtShrink (x : BitVec 32) : ℕ → BitVec 32 → Option (BitVec 32)
  | 0, b => if x < b then none else some b
  | passes + 1, b => if x < b then isqrtShrink x passes (b >>> 2) else some b

/-- `while (b != 0)`, with the sums computed on the way -/
def isqrtBits : ℕ → BitVec 32 → BitVec 32 → BitVec 32 → Option (BitVec 32 × List ℕ)
  | 0, _, r, b => if b = 0 then some (r, []) else none
  | passes + 1, x, r, b =>
    if b = 0 then some (r, [])
    else
      let compared := r.toNat + b.toNat
      if r + b ≤ x then
        (isqrtBits passes (x - (r + b)) ((r >>> 1) + b) (b >>> 2)).map fun p =>
          (p.1, compared :: compared :: ((r >>> 1).toNat + b.toNat) :: p.2)
      else
        (isqrtBits passes x (r >>> 1) (b >>> 2)).map fun p => (p.1, compared :: p.2)

/-- `npu_isqrt`, with `passes` of each loop at most -/
def npuIsqrtU32 (passes : ℕ) (x : BitVec 32) : Option (BitVec 32 × List ℕ) :=
  (isqrtShrink x passes (1#32 <<< 30)).bind fun b => isqrtBits passes x 0 b

/-! ## The bit -/

/-- The bit after `16 - k` shifts. -/
def isqrtBit : ℕ → ℕ
  | 0 => 0
  | k + 1 => 4 ^ k

variable {x r b : BitVec 32} {k : ℕ}

theorem isqrtBit_div (k : ℕ) : isqrtBit (k + 1) / 4 = isqrtBit k := by
  cases k with
  | zero => rfl
  | succ k =>
    show 4 ^ (k + 1) / 4 = 4 ^ k
    rw [Nat.pow_succ, Nat.mul_div_cancel _ (by decide)]

theorem shift_isqrtBit (hb : b.toNat = isqrtBit (k + 1)) : (b >>> 2).toNat = isqrtBit k := by
  rw [BitVec.toNat_ushiftRight, hb, Nat.shiftRight_eq_div_pow]
  exact isqrtBit_div k

/-- The first loop leaves the bit where the search for the start does. -/
theorem isqrtShrink_eq (hb : b.toNat = isqrtBit k) :
    ∃ b', (∀ passes, k ≤ passes → isqrtShrink x passes b = some b') ∧
      b'.toNat = isqrtBit (isqrtStart x.toNat k) := by
  induction k generalizing b with
  | zero =>
    have hle : ¬x < b := by
      rw [BitVec.lt_def, hb]
      exact Nat.not_lt_zero _
    refine ⟨b, ?_, hb⟩
    intro passes _
    cases passes with
    | zero => exact if_neg hle
    | succ passes => exact if_neg hle
  | succ k ih =>
    have hiff : x < b ↔ x.toNat < 4 ^ k := by
      rw [BitVec.lt_def, hb]
      rfl
    unfold isqrtStart
    by_cases hx : x.toNat < 4 ^ k
    · obtain ⟨b', hrun, hb'⟩ := ih (shift_isqrtBit hb)
      rw [if_pos hx]
      refine ⟨b', ?_, hb'⟩
      intro passes hk
      obtain ⟨passes, rfl⟩ := Nat.exists_eq_add_of_le' (Nat.one_le_of_lt hk)
      rw [isqrtShrink, if_pos (hiff.mpr hx)]
      exact hrun passes (Nat.le_of_succ_le_succ hk)
    · rw [if_neg hx]
      refine ⟨b, ?_, hb⟩
      intro passes _
      cases passes with
      | zero => exact if_neg (mt hiff.mp hx)
      | succ passes => exact if_neg (mt hiff.mp hx)

/-! ## The root -/

theorem isqrtStart_le (x k : ℕ) : isqrtStart x k ≤ k := by
  induction k with
  | zero => exact le_rfl
  | succ k ih =>
    rw [isqrtStart]
    split_ifs
    · exact ih.trans (Nat.le_succ k)
    · exact le_rfl

/-- What the second loop keeps: the root has the bits `s` above bit `k`,
    `r` is `s` with the remaining bits in front of it, and what is left
    of the argument is less than the next root would take. -/
structure RootAt (k s : ℕ) (x r b : BitVec 32) : Prop where
  root : r.toNat = s * 2 ^ k
  bit : b.toNat = isqrtBit k
  room : s + 2 ^ k ≤ 2 ^ 16
  left : x.toNat + s ^ 2 < (s + 2 ^ k) ^ 2

variable {s : ℕ}

theorem four_pow_eq (k : ℕ) : (4 : ℕ) ^ k = 2 ^ k * 2 ^ k := by
  rw [← Nat.mul_pow]

/-- No sum of a pass carries out of the word. -/
theorem RootAt.sums (h : RootAt (k + 1) s x r b) :
    r.toNat + b.toNat < 2 ^ 32 ∧ (r >>> 1).toNat = s * 2 ^ k ∧
      (r >>> 1).toNat + b.toNat = (s + 2 ^ k) * 2 ^ k ∧
      (r >>> 1).toNat + b.toNat ≤ r.toNat + b.toNat := by
  have hhalf : (r >>> 1).toNat = s * 2 ^ k := by
    rw [BitVec.toNat_ushiftRight, h.root, Nat.shiftRight_eq_div_pow, Nat.pow_succ, ← Nat.mul_assoc]
    exact Nat.mul_div_cancel _ (by decide)
  have hbit : b.toNat = 2 ^ k * 2 ^ k := by
    rw [h.bit]
    exact four_pow_eq k
  have hroom : s + 2 * 2 ^ k ≤ 2 ^ 16 := by
    have := h.room
    rw [Nat.pow_succ] at this
    omega
  have hroot : r.toNat = 2 * (s * 2 ^ k) := by
    rw [h.root, Nat.pow_succ, ← Nat.mul_assoc, Nat.mul_comm]
  refine ⟨?_, hhalf, ?_, ?_⟩
  · -- less than (s + 2 ^ (k + 1)) * 2 ^ (k + 1), both factors at most 2 ^ 16
    have hprod : (s + 2 * 2 ^ k) * (2 * 2 ^ k) ≤ 2 ^ 16 * 2 ^ 16 :=
      Nat.mul_le_mul hroom (by omega)
    have hexpand : (s + 2 * 2 ^ k) * (2 * 2 ^ k) = 2 * (s * 2 ^ k) + 4 * (2 ^ k * 2 ^ k) := by
      ring
    have hpos : 0 < 2 ^ k * 2 ^ k := Nat.mul_pos (Nat.two_pow_pos k) (Nat.two_pow_pos k)
    rw [hroot, hbit]
    omega
  · rw [hhalf, hbit, Nat.add_mul]
  · rw [hhalf, hroot]
    omega

/-- The square of the root with the bit in it. -/
theorem RootAt.square (h : RootAt (k + 1) s x r b) :
    (s + 2 ^ k) ^ 2 = s ^ 2 + (r.toNat + b.toNat) := by
  have hbit : b.toNat = 4 ^ k := h.bit
  rw [h.root, hbit, four_pow_eq, Nat.pow_succ]
  ring

/-- A pass that takes the bit into the root leaves the argument that the
    new root does not cover. -/
theorem RootAt.take (h : RootAt (k + 1) s x r b) (hx : r + b ≤ x) :
    RootAt k (s + 2 ^ k) (x - (r + b)) ((r >>> 1) + b) (b >>> 2) ∧
      (x - (r + b)).toNat + (s + 2 ^ k) ^ 2 = x.toNat + s ^ 2 := by
  obtain ⟨hsum, hhalf, htaken, hle⟩ := h.sums
  have hadd : (r + b).toNat = r.toNat + b.toNat := BitVec.toNat_add_of_lt hsum
  have hrest : (x - (r + b)).toNat = x.toNat - (r.toNat + b.toNat) := by
    rw [BitVec.toNat_sub_of_le hx, hadd]
  have hx' : r.toNat + b.toNat ≤ x.toNat := by
    rwa [BitVec.le_def, hadd] at hx
  have hsame : (x - (r + b)).toNat + (s + 2 ^ k) ^ 2 = x.toNat + s ^ 2 := by
    rw [hrest, h.square]
    omega
  have hroom : s + 2 ^ k + 2 ^ k = s + 2 ^ (k + 1) := by
    rw [Nat.pow_succ]
    omega
  refine ⟨?_, hsame⟩
  constructor
  case root => rw [BitVec.toNat_add_of_lt (by omega), htaken]
  case bit => exact shift_isqrtBit h.bit
  case room =>
    rw [hroom]
    exact h.room
  case left =>
    rw [hsame, hroom]
    exact h.left

/-- A pass that leaves the bit out. -/
theorem RootAt.leave (h : RootAt (k + 1) s x r b) (hx : ¬r + b ≤ x) :
    RootAt k s x (r >>> 1) (b >>> 2) := by
  obtain ⟨hsum, hhalf, -, -⟩ := h.sums
  rw [BitVec.le_def, BitVec.toNat_add_of_lt hsum] at hx
  constructor
  case root => exact hhalf
  case bit => exact shift_isqrtBit h.bit
  case room =>
    have hroom := h.room
    rw [Nat.pow_succ] at hroom
    omega
  case left =>
    rw [h.square]
    omega

/-- The second loop ends with the root of the whole argument, and none of
    its sums is lost. -/
theorem isqrtBits_root (h : RootAt k s x r b) :
    ∃ root sums, (∀ passes, k ≤ passes → isqrtBits passes x r b = some (root, sums)) ∧
      (∀ a ∈ sums, a < 2 ^ 32) ∧ root.toNat * root.toNat ≤ x.toNat + s ^ 2 ∧
      x.toNat + s ^ 2 < (root.toNat + 1) * (root.toNat + 1) := by
  induction k generalizing s x r b with
  | zero =>
    have hb : b = 0 := BitVec.eq_of_toNat_eq h.bit
    have hroot : r.toNat = s := by
      rw [h.root, Nat.pow_zero, Nat.mul_one]
    have hleft := h.left
    rw [Nat.pow_zero] at hleft
    refine ⟨r, [], ?_, ?_, ?_, ?_⟩
    · intro passes _
      cases passes with
      | zero => exact if_pos hb
      | succ passes => exact if_pos hb
    · intro a ha
      exact absurd ha List.not_mem_nil
    · rw [hroot, ← Nat.pow_two]
      exact Nat.le_add_left _ _
    · rw [hroot, ← Nat.pow_two]
      exact hleft
  | succ k ih =>
    obtain ⟨hsum, -, -, hle⟩ := h.sums
    have hb : b ≠ 0 := by
      intro hb
      have hbit : b.toNat = 4 ^ k := h.bit
      rw [hb] at hbit
      exact absurd hbit (Nat.pow_pos (by decide)).ne
    by_cases hx : r + b ≤ x
    · -- the next pass starts from the larger root and the smaller argument
      obtain ⟨htake, hsame⟩ := h.take hx
      obtain ⟨root, sums, hrun, hsums, hlow, hhigh⟩ := ih htake
      rw [hsame] at hlow hhigh
      refine ⟨root, (r.toNat + b.toNat) :: (r.toNat + b.toNat) ::
        ((r >>> 1).toNat + b.toNat) :: sums, ?_, ?_, hlow, hhigh⟩
      · intro passes hk
        obtain ⟨passes, rfl⟩ := Nat.exists_eq_add_of_le' (Nat.one_le_of_lt hk)
        rw [isqrtBits, if_neg hb, if_pos hx, hrun passes (Nat.le_of_succ_le_succ hk)]
        rfl
      · simp only [List.forall_mem_cons]
        exact ⟨hsum, hsum, by omega, hsums⟩
    · obtain ⟨root, sums, hrun, hsums, hlow, hhigh⟩ := ih (h.leave hx)
      refine ⟨root, (r.toNat + b.toNat) :: sums, ?_, ?_, hlow, hhigh⟩
      · intro passes hk
        obtain ⟨passes, rfl⟩ := Nat.exists_eq_add_of_le' (Nat.one_le_of_lt hk)
        rw [isqrtBits, if_neg hb, if_neg hx, hrun passes (Nat.le_of_succ_le_succ hk)]
        rfl
      · simp only [List.forall_mem_cons]
        exact ⟨hsum, hsums⟩

/-- Sixteen passes of each loop are enough for the root. -/
theorem npuIsqrtU32_sqrt (x : BitVec 32) :
    ∃ root sums, (∀ passes, 16 ≤ passes → npuIsqrtU32 passes x = some (root, sums)) ∧
      (∀ a ∈ sums, a < 2 ^ 32) ∧ root.toNat = Nat.sqrt x.toNat := by
  obtain ⟨b, hshrink, hb⟩ := isqrtShrink_eq (x := x) (b := 1#32 <<< 30) (k := 16) (by decide)
  have hstart : isqrtStart x.toNat 16 ≤ 16 := isqrtStart_le _ _
  have hroot : RootAt (isqrtStart x.toNat 16) 0 x 0 b := by
    constructor
    case root =>
      rw [Nat.zero_mul]
      rfl
    case bit => exact hb
    case room =>
      rw [Nat.zero_add]
      exact Nat.pow_le_pow_right (by decide) hstart
    case left =>
      have hlt := lt_pow_isqrtStart (k := 16) x.isLt
      rw [Nat.zero_add, ← Nat.pow_mul, Nat.mul_comm, Nat.pow_mul]
      exact hlt
  obtain ⟨root, sums, hrun, hsums, hlow, hhigh⟩ := isqrtBits_root hroot
  refine ⟨root, sums, ?_, hsums, Nat.eq_sqrt.mpr ⟨hlow, hhigh⟩⟩
  intro passes hpasses
  rw [npuIsqrtU32, hshrink passes hpasses, Option.bind_some]
  exact hrun passes (hstart.trans hpasses)

/-- `npu_isqrt` ends, none of its sums is lost, and what it returns is the
    integer square root. -/
theorem npuIsqrtU32_root (x : BitVec 32) :
    ∃ root sums, (∀ passes, 16 ≤ passes → npuIsqrtU32 passes x = some (root, sums)) ∧
      (∀ a ∈ sums, a < 2 ^ 32) ∧ root.toNat * root.toNat ≤ x.toNat ∧
      x.toNat < (root.toNat + 1) * (root.toNat + 1) := by
  obtain ⟨root, sums, hrun, hsums, hroot⟩ := npuIsqrtU32_sqrt x
  exact ⟨root, sums, hrun, hsums, Nat.eq_sqrt.mp hroot⟩

/-- The drops are spaced by this root. -/
theorem npuIsqrtU32_eq (x : BitVec 32) {passes : ℕ} (h : 16 ≤ passes) :
    (npuIsqrtU32 passes x).map (fun p => p.1.toNat) = some (npuIsqrt x.toNat) := by
  obtain ⟨root, sums, hrun, -, hroot⟩ := npuIsqrtU32_sqrt x
  rw [hrun passes h, npuIsqrt_eq x.isLt, ← hroot]
  rfl

example : (npuIsqrtU32 16 0xFFFFFFFF).map (fun p => p.1.toNat) = some 65535 := by decide +kernel

end ClankerNPU.StaQ
