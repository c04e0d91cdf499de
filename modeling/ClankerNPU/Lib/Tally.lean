import Mathlib.Algebra.BigOperators.Group.Finset.Piecewise
import Mathlib.Data.Finset.Card
import Mathlib.Data.Finset.Range
import Mathlib.Logic.Function.Basic

/-! # Tallies

    How many of the first `n` slots carry a label. A change of one slot
    moves the tally of a label by what that slot carried before and
    carries after. -/

namespace Tally

variable {α : Type*} [DecidableEq α]

/-- How many of the first `n` slots carry `x`. -/
def tally (n : ℕ) (c : ℕ → α) (x : α) : ℕ := ((Finset.range n).filter fun i => c i = x).card

/-- One of a label, or none. -/
def unit (a x : α) : ℕ := if a = x then 1 else 0

theorem unit_self (x : α) : unit x x = 1 := if_pos rfl

theorem unit_of_ne {a x : α} (h : a ≠ x) : unit a x = 0 := if_neg h

/-- Two labellings that agree on where a label of each stands. -/
theorem tally_eq_of_iff {β : Type*} [DecidableEq β] {n : ℕ} {c : ℕ → α} {c' : ℕ → β} {x : α}
    {y : β} (h : ∀ i < n, c' i = y ↔ c i = x) : tally n c' y = tally n c x := by
  unfold tally
  congr 1
  apply Finset.filter_congr
  intro i hi
  exact h i (Finset.mem_range.1 hi)

theorem tally_congr {n : ℕ} {c c' : ℕ → α} (x : α) (h : ∀ i < n, c' i = c i) :
    tally n c' x = tally n c x := by
  apply tally_eq_of_iff
  intro i hi
  rw [h i hi]

theorem tally_le (n : ℕ) (c : ℕ → α) (x : α) : tally n c x ≤ n := by
  have h := Finset.card_filter_le (Finset.range n) fun i => c i = x
  rw [Finset.card_range] at h
  exact h

theorem tally_pos {n i : ℕ} {c : ℕ → α} {x : α} (hi : i < n) (h : c i = x) :
    0 < tally n c x := by
  apply Finset.card_pos.2
  exact ⟨i, Finset.mem_filter.2 ⟨Finset.mem_range.2 hi, h⟩⟩

theorem tally_eq_zero {n : ℕ} {c : ℕ → α} {x : α} (h : ∀ i < n, c i ≠ x) : tally n c x = 0 := by
  apply Finset.card_eq_zero.2
  apply Finset.filter_eq_empty_iff.2
  intro i hi
  exact h i (Finset.mem_range.1 hi)

/-- Slots that differ at one place only. -/
theorem tally_change {n i : ℕ} {c c' : ℕ → α} (x : α) (hi : i < n)
    (h : ∀ j, j ≠ i → c' j = c j) :
    tally n c' x + unit (c i) x = tally n c x + unit (c' i) x := by
  have hmem : i ∈ Finset.range n := Finset.mem_range.2 hi
  -- the slot itself apart, both tallies are sums over the same others
  have hrest : ∑ j ∈ (Finset.range n).erase i, unit (c' j) x =
      ∑ j ∈ (Finset.range n).erase i, unit (c j) x := by
    apply Finset.sum_congr rfl
    intro j hj
    rw [h j (Finset.ne_of_mem_erase hj)]
  have hnew : tally n c' x = ∑ j ∈ Finset.range n, unit (c' j) x := Finset.card_filter _ _
  have hold : tally n c x = ∑ j ∈ Finset.range n, unit (c j) x := Finset.card_filter _ _
  rw [← Finset.add_sum_erase _ _ hmem] at hnew hold
  omega

end Tally
