import Mathlib.Algebra.Order.Ring.Nat
import Mathlib.Data.List.Basic
import Mathlib.Logic.Function.Basic
import Mathlib.Tactic.Common

/-! # Byte memories

    A memory is a function from addresses to bytes. A slice is the list
    of bytes at consecutive addresses; 16-bit words are big-endian, as on
    the wire, 32-bit words little-endian. -/

/-- A byte. -/
abbrev Byte := Fin 256

/-- Byte literals go through one instance. -/
instance neZero_256 : NeZero 256 := ⟨by decide⟩

/-- Bytes by address. -/
abbrev Memory := ℕ → Byte

namespace Memory

variable {m m' : Memory} {a b n k v : ℕ}

/-- The low byte of a number. -/
def byte (v : ℕ) : Byte := ⟨v % 256, Nat.mod_lt _ (by decide)⟩

def put8 (m : Memory) (a v : ℕ) : Memory := Function.update m a (byte v)

/-- A big-endian 16-bit word written. -/
def put16 (m : Memory) (a v : ℕ) : Memory := (m.put8 a (v / 256)).put8 (a + 1) v

/-- A little-endian 32-bit word written. -/
def put32 (m : Memory) (a v : ℕ) : Memory :=
  (((m.put8 a v).put8 (a + 1) (v / 256)).put8 (a + 2) (v / 65536)).put8 (a + 3) (v / 16777216)

/-- A big-endian 16-bit word. -/
def be16 (m : Memory) (a : ℕ) : ℕ := (m a).val * 256 + (m (a + 1)).val

/-- A little-endian 32-bit word. -/
def word32 (m : Memory) (a : ℕ) : ℕ :=
  (m a).val + (m (a + 1)).val * 256 + (m (a + 2)).val * 65536 + (m (a + 3)).val * 16777216

/-- `n` bytes copied from `src` to `dst`. -/
def copy (m : Memory) (dst src n : ℕ) : Memory := fun a =>
  if dst ≤ a ∧ a < dst + n then m (src + (a - dst)) else m a

/-- `n` bytes copied from another memory. -/
def copyFrom (m : Memory) (dst : ℕ) (from' : Memory) (src n : ℕ) : Memory := fun a =>
  if dst ≤ a ∧ a < dst + n then from' (src + (a - dst)) else m a

/-- The bytes at `n` addresses from `a` on. -/
def slice (m : Memory) (a n : ℕ) : List Byte := (List.range n).map fun i => m (a + i)

/-- The big-endian 16-bit word at a place of a list. -/
def word (l : List Byte) (i : ℕ) : ℕ := (l.getD i 0).val * 256 + (l.getD (i + 1) 0).val

/-! ## Slices -/

@[simp] theorem length_slice (m : Memory) (a n : ℕ) : (m.slice a n).length = n := by
  unfold slice
  rw [List.length_map, List.length_range]

@[simp] theorem slice_zero (m : Memory) (a : ℕ) : m.slice a 0 = [] := rfl

theorem slice_add (m : Memory) (a n k : ℕ) :
    m.slice a (n + k) = m.slice a n ++ m.slice (a + n) k := by
  unfold slice
  rw [List.range_add, List.map_append, List.map_map]
  congr 1
  apply List.map_congr_left
  intro i _
  show m (a + (n + i)) = m (a + n + i)
  rw [Nat.add_assoc]

theorem slice_congr (h : ∀ i < n, m' (b + i) = m (a + i)) : m'.slice b n = m.slice a n := by
  apply List.map_congr_left
  intro i hi
  exact h i (List.mem_range.1 hi)

theorem getElem?_slice (m : Memory) (a : ℕ) {i n : ℕ} (h : i < n) :
    (m.slice a n)[i]? = some (m (a + i)) := by
  unfold slice
  rw [List.getElem?_map, List.getElem?_range h]
  rfl

theorem drop_slice (m : Memory) (a k n : ℕ) :
    (m.slice a (k + n)).drop k = m.slice (a + k) n := by
  rw [slice_add, List.drop_append_of_le_length (Nat.le_of_eq (length_slice m a k).symm),
    List.drop_of_length_le (Nat.le_of_eq (length_slice m a k)), List.nil_append]

/-- Equal slices agree byte by byte. -/
theorem eq_of_slice_eq (h : m'.slice b n = m.slice a n) {i : ℕ} (hi : i < n) :
    m' (b + i) = m (a + i) := by
  have hm' := getElem?_slice m' b hi
  rw [h, getElem?_slice m a hi] at hm'
  exact (Option.some.inj hm').symm

/-! ## Words -/

theorem word_slice (m : Memory) (a : ℕ) {i n : ℕ} (h : i + 1 < n) :
    word (m.slice a n) i = m.be16 (a + i) := by
  unfold word be16
  rw [List.getD_eq_getElem?_getD, List.getD_eq_getElem?_getD, getElem?_slice m a h,
    getElem?_slice m a (by omega)]
  rfl

theorem word_append_left {l r : List Byte} {i : ℕ} (h : i + 1 < l.length) :
    word (l ++ r) i = word l i := by
  unfold word
  rw [List.getD_eq_getElem?_getD, List.getD_eq_getElem?_getD, List.getD_eq_getElem?_getD,
    List.getD_eq_getElem?_getD, List.getElem?_append_left h, List.getElem?_append_left (by omega)]

theorem word_append_right {l r : List Byte} {i : ℕ} (h : l.length ≤ i) :
    word (l ++ r) i = word r (i - l.length) := by
  have hnext : i + 1 - l.length = i - l.length + 1 := by omega
  unfold word
  rw [List.getD_eq_getElem?_getD, List.getD_eq_getElem?_getD, List.getD_eq_getElem?_getD,
    List.getD_eq_getElem?_getD, List.getElem?_append_right h,
    List.getElem?_append_right (by omega), hnext]

theorem be16_lt (m : Memory) (a : ℕ) : m.be16 a < 2 ^ 16 := by
  unfold be16
  have h1 := (m a).isLt
  have h2 := (m (a + 1)).isLt
  omega

/-! ## Writes -/

@[simp] theorem put8_self (m : Memory) (a v : ℕ) : m.put8 a v a = byte v :=
  Function.update_self _ _ _

theorem put8_of_ne (m : Memory) {a b : ℕ} (v : ℕ) (h : b ≠ a) : m.put8 a v b = m b :=
  Function.update_of_ne h _ _

theorem put16_of_ne (m : Memory) {a b : ℕ} (v : ℕ) (h : b ≠ a ∧ b ≠ a + 1) :
    m.put16 a v b = m b := by
  unfold put16
  rw [put8_of_ne _ _ h.2, put8_of_ne _ _ h.1]

theorem put32_of_ne (m : Memory) {a b : ℕ} (v : ℕ) (h : b < a ∨ a + 4 ≤ b) :
    m.put32 a v b = m b := by
  unfold put32
  rw [put8_of_ne _ _ (by omega), put8_of_ne _ _ (by omega), put8_of_ne _ _ (by omega),
    put8_of_ne _ _ (by omega)]

theorem put16_hi (m : Memory) (a v : ℕ) : m.put16 a v a = byte (v / 256) := by
  unfold put16
  rw [put8_of_ne _ _ (by omega), put8_self]

theorem put16_lo (m : Memory) (a v : ℕ) : m.put16 a v (a + 1) = byte v := put8_self _ _ _

theorem be16_put16_self (m : Memory) (a : ℕ) {v : ℕ} (hv : v < 2 ^ 16) :
    (m.put16 a v).be16 a = v := by
  unfold be16
  rw [put16_hi, put16_lo]
  unfold byte
  dsimp only
  omega

theorem be16_congr (h0 : m' b = m a) (h1 : m' (b + 1) = m (a + 1)) : m'.be16 b = m.be16 a := by
  unfold be16
  rw [h0, h1]

/-- Equal words are equal bytes. -/
theorem eq_of_be16_eq (h : m'.be16 b = m.be16 a) : m' b = m a ∧ m' (b + 1) = m (a + 1) := by
  unfold be16 at h
  have h1 := (m a).isLt
  have h2 := (m (a + 1)).isLt
  have h3 := (m' b).isLt
  have h4 := (m' (b + 1)).isLt
  constructor
  · apply Fin.ext
    omega
  · apply Fin.ext
    omega

/-- Slices that agree at some words and, byte by byte, away from them. -/
theorem slice_eq_of_words (ps : List ℕ) (hword : ∀ p ∈ ps, m'.be16 (b + p) = m.be16 (a + p))
    (haway : ∀ i < n, (∀ p ∈ ps, i ≠ p ∧ i ≠ p + 1) → m' (b + i) = m (a + i)) :
    m'.slice b n = m.slice a n := by
  apply slice_congr
  intro i hi
  by_cases hnear : ∃ p ∈ ps, i = p ∨ i = p + 1
  · obtain ⟨p, hp, hip⟩ := hnear
    obtain ⟨hhi, hlo⟩ := eq_of_be16_eq (hword p hp)
    rcases hip with rfl | rfl
    · exact hhi
    · exact hlo
  · apply haway i hi
    intro p hp
    constructor
    · rintro rfl
      exact hnear ⟨i, hp, .inl rfl⟩
    · intro heq
      exact hnear ⟨p, hp, .inr heq⟩

theorem be16_put32_of_ne (m : Memory) {a b : ℕ} (v : ℕ) (h : b + 1 < a ∨ a + 4 ≤ b) :
    (m.put32 a v).be16 b = m.be16 b :=
  be16_congr (put32_of_ne m v (by omega)) (put32_of_ne m v (by omega))

theorem be16_put16_of_ne (m : Memory) {a b : ℕ} (v : ℕ) (h : b + 1 < a ∨ a + 1 < b) :
    (m.put16 a v).be16 b = m.be16 b :=
  be16_congr (put16_of_ne m v (by omega)) (put16_of_ne m v (by omega))

/-- The bytes of a little-endian word. -/
theorem put32_apply (m : Memory) (a v b : ℕ) :
    m.put32 a v b = if a ≤ b ∧ b < a + 4 then byte (v / 256 ^ (b - a)) else m b := by
  by_cases hin : a ≤ b ∧ b < a + 4
  · rw [if_pos hin]
    obtain rfl | rfl | rfl | rfl : b = a ∨ b = a + 1 ∨ b = a + 2 ∨ b = a + 3 := by omega
    · unfold put32
      rw [put8_of_ne _ _ (by omega), put8_of_ne _ _ (by omega), put8_of_ne _ _ (by omega),
        put8_self, Nat.sub_self, Nat.pow_zero, Nat.div_one]
    · unfold put32
      rw [put8_of_ne _ _ (by omega), put8_of_ne _ _ (by omega), put8_self,
        Nat.add_sub_cancel_left]
      rfl
    · unfold put32
      rw [put8_of_ne _ _ (by omega), put8_self, Nat.add_sub_cancel_left]
      rfl
    · unfold put32
      rw [put8_self, Nat.add_sub_cancel_left]
      rfl
  · rw [if_neg hin, put32_of_ne _ _ (by omega)]

theorem word32_congr (h : ∀ i < 4, m' (b + i) = m (a + i)) : m'.word32 b = m.word32 a := by
  unfold word32
  rw [h 1 (by decide), h 2 (by decide), h 3 (by decide)]
  have h0 : m' b = m a := h 0 (by decide)
  rw [h0]

theorem word32_put32_of_ne (m : Memory) {a b : ℕ} (v : ℕ) (h : b + 4 ≤ a ∨ a + 4 ≤ b) :
    (m.put32 a v).word32 b = m.word32 b :=
  word32_congr fun i hi => put32_of_ne m v (by omega)

theorem word32_put32_self (m : Memory) (a : ℕ) {v : ℕ} (hv : v < 2 ^ 32) :
    (m.put32 a v).word32 a = v := by
  have h0 : m.put32 a v a = byte v := by
    rw [put32_apply, if_pos ⟨le_rfl, by omega⟩, Nat.sub_self, Nat.pow_zero, Nat.div_one]
  have hbyte : ∀ i < 4, m.put32 a v (a + i) = byte (v / 256 ^ i) := by
    intro i hi
    rw [put32_apply, if_pos ⟨by omega, by omega⟩, Nat.add_sub_cancel_left]
  unfold word32
  rw [h0, hbyte 1 (by decide), hbyte 2 (by decide), hbyte 3 (by decide)]
  unfold byte
  dsimp only
  omega

theorem copy_of_outside (m : Memory) {dst src n b : ℕ} (h : b < dst ∨ dst + n ≤ b) :
    m.copy dst src n b = m b := by
  unfold copy
  rw [if_neg (by omega)]

theorem copyFrom_of_outside (m from' : Memory) {dst src n b : ℕ} (h : b < dst ∨ dst + n ≤ b) :
    m.copyFrom dst from' src n b = m b := by
  unfold copyFrom
  rw [if_neg (by omega)]

theorem slice_copyFrom_self (m : Memory) (dst : ℕ) (from' : Memory) (src n : ℕ) :
    (m.copyFrom dst from' src n).slice dst n = from'.slice src n := by
  apply slice_congr
  intro i hi
  unfold copyFrom
  rw [if_pos (by omega), Nat.add_sub_cancel_left]

/-! ## Memories that agree at a range -/

/-- The bytes from `lo` up to `hi` are the same. -/
def SameOn (lo hi : ℕ) (m m' : Memory) : Prop := ∀ a, lo ≤ a → a < hi → m' a = m a

variable {lo hi : ℕ}

theorem SameOn.refl (lo hi : ℕ) (m : Memory) : SameOn lo hi m m := fun _ _ _ => rfl

theorem SameOn.put8 (h : SameOn lo hi m m') (a v : ℕ) (ha : a < lo ∨ hi ≤ a) :
    SameOn lo hi m (m'.put8 a v) :=
  fun x hlo hhi => (put8_of_ne _ _ (by omega)).trans (h x hlo hhi)

theorem SameOn.put16 (h : SameOn lo hi m m') (a v : ℕ) (ha : a + 2 ≤ lo ∨ hi ≤ a) :
    SameOn lo hi m (m'.put16 a v) :=
  fun x hlo hhi => (put16_of_ne _ _ (by omega)).trans (h x hlo hhi)

theorem SameOn.put32 (h : SameOn lo hi m m') (a v : ℕ) (ha : a + 4 ≤ lo ∨ hi ≤ a) :
    SameOn lo hi m (m'.put32 a v) :=
  fun x hlo hhi => (put32_of_ne _ _ (by omega)).trans (h x hlo hhi)

theorem SameOn.copy (h : SameOn lo hi m m') (dst src n : ℕ) (ha : dst + n ≤ lo ∨ hi ≤ dst) :
    SameOn lo hi m (m'.copy dst src n) :=
  fun x hlo hhi => (copy_of_outside _ (by omega)).trans (h x hlo hhi)

end Memory
