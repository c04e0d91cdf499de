import Mathlib.Algebra.BigOperators.Group.Finset.Basic
import Mathlib.Algebra.BigOperators.Group.Multiset.Basic
import Mathlib.Algebra.Order.BigOperators.Group.Finset
import Mathlib.Algebra.Order.Group.Multiset
import Mathlib.Algebra.Order.Ring.Nat
import Mathlib.Tactic.Abel

/-! # Custody of tokens

    Tokens move between finitely many places. When the places' holdings
    add up to one set of tokens, every token is in exactly one place,
    exactly once, and nothing else is anywhere. -/

open scoped BigOperators

namespace Custody

variable {Place Token Key Cell : Type*}

/-- `x` is in place `p` once and in no other place. -/
def HeldOnceAt [DecidableEq Token] (held : Place → Multiset Token) (x : Token) (p : Place) :
    Prop :=
  (held p).count x = 1 ∧ ∀ q, q ≠ p → x ∉ held q

/-- `x` is in exactly one place, exactly once. -/
def HeldOnce [DecidableEq Token] (held : Place → Multiset Token) (x : Token) : Prop :=
  ∃ p, HeldOnceAt held x p

/-- A token held once is held once where it is. -/
theorem HeldOnce.at_of_mem [DecidableEq Token] {held : Place → Multiset Token} {x : Token}
    {p : Place} (h : HeldOnce held x) (hmem : x ∈ held p) : HeldOnceAt held x p := by
  obtain ⟨q, hq⟩ := h
  have hpq : p = q := by
    by_contra hne
    exact hq.2 p hne hmem
  rw [hpq]
  exact hq

section sums

variable [Fintype Place] {held : Place → Multiset Token} {all : Multiset Token}

/-- One place holds no more than all places together. -/
theorem le_of_sum (hsum : ∑ p, held p = all) (p : Place) : held p ≤ all := by
  rw [← hsum]
  exact Finset.single_le_sum (fun q _ => Multiset.zero_le (held q)) (Finset.mem_univ p)

/-- A token outside the whole is in no place. -/
theorem not_mem_of_sum (hsum : ∑ p, held p = all) {x : Token} (hx : x ∉ all) (p : Place) :
    x ∉ held p := by
  intro hmem
  exact hx (Multiset.mem_of_le (le_of_sum hsum p) hmem)

/-- A token the holdings count once altogether is held once. -/
theorem heldOnce_of_count [DecidableEq Token] {x : Token} (hone : (∑ p, held p).count x = 1) :
    HeldOnce held x := by
  have hcount : ∑ p, (held p).count x = 1 := by
    rw [← Multiset.count_sum']
    exact hone
  obtain ⟨p, hp⟩ : ∃ p, (held p).count x ≠ 0 := by
    by_contra hnone
    push Not at hnone
    simp [hnone] at hcount
  have hle : ∀ q, q ≠ p → (held p).count x + (held q).count x ≤ 1 := by
    intro q hq
    classical
    have hpair : ∑ i ∈ {p, q}, (held i).count x ≤ ∑ i, (held i).count x :=
      Finset.sum_le_sum_of_subset (Finset.subset_univ _)
    rwa [Finset.sum_pair (Ne.symm hq), hcount] at hpair
  refine ⟨p, ?_, ?_⟩
  · have hle1 : (held p).count x ≤ ∑ q, (held q).count x :=
      Finset.single_le_sum (f := fun q => (held q).count x) (fun q _ => Nat.zero_le _)
        (Finset.mem_univ p)
    omega
  · intro q hq
    rw [← Multiset.count_eq_zero]
    have := hle q hq
    omega

/-- If the holdings add up to a set, each of its tokens is held once. -/
theorem heldOnce_of_sum [DecidableEq Token] (hsum : ∑ p, held p = all) (hnd : all.Nodup)
    {x : Token} (hx : x ∈ all) : HeldOnce held x := by
  apply heldOnce_of_count
  rw [hsum]
  exact Multiset.count_eq_one_of_mem hnd hx

end sums

section cells

/-- Two tables of holdings that agree off one key differ by that key. -/
theorem sum_agree_off [Fintype Key] (f g : Key → Multiset Token) (k : Key)
    (h : ∀ i, i ≠ k → f i = g i) :
    ∑ i, f i + g k = ∑ i, g i + f k := by
  classical
  rw [← Finset.add_sum_erase _ f (Finset.mem_univ k),
    ← Finset.add_sum_erase _ g (Finset.mem_univ k)]
  have herase : ∑ i ∈ Finset.univ.erase k, f i = ∑ i ∈ Finset.univ.erase k, g i :=
    Finset.sum_congr rfl fun i hi => h i (Finset.ne_of_mem_erase hi)
  rw [herase]
  abel

/-- Writing one cell of a table changes its holdings by that cell. -/
theorem sum_update [Fintype Key] [DecidableEq Key] (hold : Cell → Multiset Token)
    (f : Key → Cell) (k : Key)
    (c : Cell) :
    ∑ i, hold (Function.update f k c i) + hold (f k) = ∑ i, hold (f i) + hold c := by
  have := sum_agree_off (fun i => hold (Function.update f k c i)) (fun i => hold (f i)) k
    (fun i hi => by simp [Function.update_of_ne hi])
  simpa using this

/-- A sum of lists' contents is the content of their concatenation. -/
theorem sum_map_coe (l : List Key) (held : Key → List Token) :
    (l.map fun k => (held k : Multiset Token)).sum = (l.flatMap held : List Token) := by
  induction l with
  | nil => rfl
  | cons k l ih =>
    rw [List.map_cons, List.sum_cons, ih, List.flatMap_cons, Multiset.coe_add]

end cells

end Custody
