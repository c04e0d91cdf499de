import ClankerNPU.Lib.Circular
import Mathlib.Algebra.BigOperators.Group.Finset.Basic
import Mathlib.Data.List.ReduceOption

/-! # Rings of flagged slots

    A ring whose slots carry their own flag: the producer fills the slot
    at its write index when the flag is clear, the consumer clears the
    slot at its read index and moves on. Neither reads the other's
    index. A filled slot is `some e`, a cleared one `none`. -/

open Circular
open scoped BigOperators

/-- A ring of flagged slots with one producer and one consumer. -/
structure FlagRing (E : Type*) where
  slot : ℕ → Option E
  widx : ℕ
  ridx : ℕ

namespace FlagRing

variable {E : Type*} {n : ℕ} {r r' : FlagRing E} {q : List E} {e : E}

/-- All slots clear, both indices at the start. -/
def empty : FlagRing E := ⟨fun _ => none, 0, 0⟩

/-- Fill the slot at the write index; `none` is a refusal. -/
def put (n : ℕ) (r : FlagRing E) (e : E) : Option (FlagRing E) :=
  if (r.slot r.widx).isSome then none
  else some { r with slot := Function.update r.slot r.widx (some e)
                     widx := next (n - 1) r.widx }

/-- Clear the slot at the read index and move on. -/
def pop (n : ℕ) (r : FlagRing E) : FlagRing E :=
  { r with slot := Function.update r.slot r.ridx none, ridx := next (n - 1) r.ridx }

/-- The filled slots in order from the read index. -/
def contents (n : ℕ) (r : FlagRing E) : List E := (window r.slot n r.ridx n).reduceOption

/-- The ring holds the queue `q`: its slots from the read index on carry
    `q`, all others are clear, and the write index is behind the last. -/
structure Holds (n : ℕ) (r : FlagRing E) (q : List E) : Prop where
  ridx_lt : r.ridx < n
  length_le : q.length ≤ n
  widx_eq : r.widx = (r.ridx + q.length) % n
  slot_eq : ∀ j, j < n → r.slot ((r.ridx + j) % n) = q[j]?

theorem holds_empty (hn : 0 < n) : (empty : FlagRing E).Holds n [] where
  ridx_lt := hn
  length_le := Nat.zero_le n
  widx_eq := (Nat.zero_mod n).symm
  slot_eq := fun _ _ => rfl

/-- The queue is determined by the ring. -/
theorem Holds.contents (h : r.Holds n q) : r.contents n = q := by
  -- the first slots carry the queue, the rest nothing
  have hsplit : window r.slot n r.ridx n
      = q.map some ++ List.replicate (n - q.length) none := by
    apply List.ext_getElem?
    intro j
    by_cases hj : j < n
    · have hcell : (window r.slot n r.ridx n)[j]? = some q[j]? := by
        rw [← h.slot_eq j hj]
        simp [window, hj]
      rw [hcell, List.getElem?_append]
      by_cases hq : j < q.length
      · simp [hq]
      · have hrest : j - q.length < n - q.length := by omega
        simp [hq, hrest]
    · have hleft : (window r.slot n r.ridx n).length ≤ j := by simpa using hj
      have hright : (q.map some ++ List.replicate (n - q.length) none).length ≤ j := by
        have := h.length_le
        simp only [List.length_append, List.length_map, List.length_replicate]
        omega
      rw [List.getElem?_eq_none hleft, List.getElem?_eq_none hright]
  show (window r.slot n r.ridx n).reduceOption = q
  rw [hsplit, List.reduceOption_append, List.reduceOption_replicate_none, List.append_nil]
  simp [List.reduceOption, List.filterMap_map]

/-- The slot at the read index carries the head of the queue. -/
theorem Holds.head (h : r.Holds n q) : r.slot r.ridx = q.head? := by
  have hslot := h.slot_eq 0 (by have := h.ridx_lt; omega)
  rwa [Nat.add_zero, Nat.mod_eq_of_lt h.ridx_lt, ← List.head?_eq_getElem?] at hslot

/-- The producer is refused exactly when the ring is full. -/
theorem Holds.put_eq_none_iff (h : r.Holds n q) : r.put n e = none ↔ q.length = n := by
  have hle := h.length_le
  have hlt := h.ridx_lt
  unfold put
  rw [h.widx_eq]
  by_cases hfull : q.length = n
  · have hslot := h.slot_eq 0 (by omega)
    have hpos : 0 < q.length := by omega
    rw [hfull, Nat.add_mod_right]
    rw [Nat.add_zero] at hslot
    simp [hslot, hpos]
  · have hslot := h.slot_eq q.length (by omega)
    simp [hslot, hfull]

/-- The producer leaves the consumer's index alone. -/
theorem put_ridx (hput : r.put n e = some r') : r'.ridx = r.ridx := by
  unfold put at hput
  split at hput
  · cases hput
  · obtain rfl := Option.some.inj hput
    rfl

/-- A put appends. -/
theorem Holds.put (h : r.Holds n q) (hput : r.put n e = some r') : r'.Holds n (q ++ [e]) := by
  have hroom : q.length ≠ n := by
    intro hfull
    rw [(h.put_eq_none_iff (e := e)).mpr hfull] at hput
    cases hput
  have hle := h.length_le
  have hlt := h.ridx_lt
  unfold FlagRing.put at hput
  split at hput
  · cases hput
  · obtain rfl := Option.some.inj hput
    refine ⟨hlt, ?_, ?_, ?_⟩
    · simp only [List.length_append, List.length_singleton]
      omega
    · show next (n - 1) r.widx = _
      rw [h.widx_eq, next_pred_eq_mod (Nat.mod_lt _ (by omega)), List.length_append,
        List.length_singleton, mod_add_mod_eq]
    · intro j hj
      show Function.update r.slot r.widx (some e) ((r.ridx + j) % n) = _
      by_cases hend : j = q.length
      · rw [hend, h.widx_eq, Function.update_self]
        simp
      · -- any other offset names another slot
        have hne : (r.ridx + j) % n ≠ r.widx := by
          rw [h.widx_eq]
          intro heq
          exact hend (offset_injective hj (by omega) heq)
        rw [Function.update_of_ne hne, h.slot_eq j hj]
        by_cases hlow : j < q.length
        · rw [List.getElem?_append_left hlow]
        · rw [List.getElem?_eq_none (by omega), List.getElem?_eq_none]
          simp only [List.length_append, List.length_singleton]
          omega

/-- A pop takes the head. -/
theorem Holds.pop (h : r.Holds n (e :: q)) : (r.pop n).Holds n q := by
  have hle := h.length_le
  have hlt := h.ridx_lt
  have hlen : (e :: q).length = q.length + 1 := rfl
  have hnext : (r.pop n).ridx = (r.ridx + 1) % n := next_pred_eq_mod hlt
  refine ⟨?_, by omega, ?_, ?_⟩
  · rw [hnext]
    exact Nat.mod_lt _ (by omega)
  · rw [hnext, mod_add_mod_eq, Nat.add_comm 1]
    exact h.widx_eq
  · intro j hj
    rw [hnext, mod_add_mod_eq]
    show Function.update r.slot r.ridx none ((r.ridx + (1 + j)) % n) = _
    by_cases hlast : j + 1 = n
    · -- the walk comes back to the slot just cleared
      have hturn : (r.ridx + (1 + j)) % n = r.ridx := by
        rw [Nat.add_comm 1, hlast, Nat.add_mod_right, Nat.mod_eq_of_lt hlt]
      rw [hturn, Function.update_self, List.getElem?_eq_none (by omega)]
    · have hne : (r.ridx + (1 + j)) % n ≠ r.ridx := by
        intro heq
        have hzero : (r.ridx + (1 + j)) % n = (r.ridx + 0) % n := by
          rw [heq, Nat.add_zero, Nat.mod_eq_of_lt hlt]
        have := offset_injective (by omega) (by omega) hzero
        omega
      rw [Function.update_of_ne hne, h.slot_eq (1 + j) (by omega), Nat.add_comm 1,
        List.getElem?_cons_succ]

/-- The ring is what its producer and consumer make of an empty one. -/
def Ok (n : ℕ) (r : FlagRing E) : Prop := r.Holds n (r.contents n)

theorem Holds.ok (h : r.Holds n q) : r.Ok n := by
  unfold Ok
  rwa [h.contents]

theorem ok_empty (hn : 0 < n) : (empty : FlagRing E).Ok n := (holds_empty hn).ok

theorem contents_empty (hn : 0 < n) : (empty : FlagRing E).contents n = [] :=
  (holds_empty hn).contents

theorem Ok.put (h : r.Ok n) (hput : r.put n e = some r') :
    r'.Ok n ∧ r'.contents n = r.contents n ++ [e] :=
  ⟨(Holds.put h hput).ok, (Holds.put h hput).contents⟩

theorem Ok.pop (h : r.Ok n) (hhead : r.slot r.ridx = some e) :
    (r.pop n).Ok n ∧ r.contents n = e :: (r.pop n).contents n := by
  have hq : ∃ q, r.contents n = e :: q := by
    have := Holds.head h
    rw [hhead] at this
    cases hc : r.contents n with
    | nil => rw [hc] at this; cases this
    | cons d q =>
      rw [hc, List.head?_cons] at this
      obtain rfl := Option.some.inj this
      exact ⟨q, rfl⟩
  obtain ⟨q, hq⟩ := hq
  have hpop : (r.pop n).Holds n q := by
    apply Holds.pop (e := e)
    rw [← hq]
    exact h
  exact ⟨hpop.ok, by rw [hq, hpop.contents]⟩

/-- The `j`th slot from the read index carries the `j`th element. -/
theorem Ok.slot_eq (h : r.Ok n) {j : ℕ} (hj : j < n) :
    r.slot ((r.ridx + j) % n) = (r.contents n)[j]? :=
  Holds.slot_eq h j hj

/-! ## The filled slots by number -/

/-- What the filled slots carry, whatever the indices. -/
def filled (n : ℕ) (r : FlagRing E) : Multiset E :=
  ∑ i ∈ Finset.range n, ((r.slot i).toList : Multiset E)

/-- Walking round the ring meets every filled slot. -/
theorem contents_eq_filled (hr : r.ridx < n) : (r.contents n : Multiset E) = r.filled n := by
  have hlist : ∀ k, ((((List.range k).map r.slot).reduceOption : List E) : Multiset E) =
      r.filled k := by
    intro k
    induction k with
    | zero => rfl
    | succ k ih =>
      have hlast : (((List.map r.slot [k]).reduceOption : List E) : Multiset E) =
          ((r.slot k).toList : Multiset E) := by
        cases hslot : r.slot k with
        | none => simp [List.reduceOption, hslot]
        | some e => simp [List.reduceOption, hslot]
      unfold filled at ih ⊢
      rw [List.range_succ, List.map_append, List.reduceOption_append, ← Multiset.coe_add, ih,
        hlast, Finset.sum_range_succ]
  rw [← hlist n]
  exact Multiset.coe_eq_coe.mpr ((window_full_perm r.slot hr).filterMap id)

theorem mem_filled {i : ℕ} (hi : i < n) (h : r.slot i = some e) : e ∈ r.filled n := by
  refine Multiset.mem_sum.mpr ⟨i, Finset.mem_range.mpr hi, ?_⟩
  rw [h]
  exact List.mem_singleton_self e

/-- One slot with something else in it. -/
theorem filled_update (r r' : FlagRing E) {i : ℕ} (o : Option E) (hi : i < n)
    (h : r'.slot = Function.update r.slot i o) :
    r'.filled n + ((r.slot i).toList : Multiset E) = r.filled n + (o.toList : Multiset E) := by
  have hmem : i ∈ Finset.range n := Finset.mem_range.mpr hi
  have hrest : ∑ j ∈ (Finset.range n).erase i, ((r'.slot j).toList : Multiset E) =
      ∑ j ∈ (Finset.range n).erase i, ((r.slot j).toList : Multiset E) := by
    refine Finset.sum_congr rfl fun j hj => ?_
    rw [h, Function.update_of_ne (Finset.ne_of_mem_erase hj)]
  unfold filled
  rw [← Finset.add_sum_erase _ _ hmem, ← Finset.add_sum_erase _ _ hmem, hrest, h,
    Function.update_self, add_right_comm, add_comm (o.toList : Multiset E), add_right_comm]

/-- A put adds its element. -/
theorem filled_put (hw : r.widx < n) (hput : r.put n e = some r') :
    r'.filled n = r.filled n + {e} := by
  unfold put at hput
  split at hput
  · cases hput
  · next hclear =>
    obtain rfl := Option.some.inj hput
    have hupdate := filled_update r { r with
      slot := Function.update r.slot r.widx (some e), widx := next (n - 1) r.widx } (some e) hw rfl
    rw [Option.not_isSome_iff_eq_none.mp hclear] at hupdate
    rwa [Option.toList_none, Multiset.coe_nil, add_zero] at hupdate

/-- A pop takes the element at the read index. -/
theorem filled_pop (hr : r.ridx < n) (hslot : r.slot r.ridx = some e) :
    (r.pop n).filled n + {e} = r.filled n := by
  have hupdate := filled_update r (r.pop n) none hr rfl
  rw [hslot] at hupdate
  rwa [Option.toList_none, Multiset.coe_nil, add_zero] at hupdate

/-! ## A ring cleared slot by slot -/

/-- Both indices back at the start. -/
def rewind (r : FlagRing E) : FlagRing E := { r with widx := 0, ridx := 0 }

/-- One slot cleared. -/
def wipe (r : FlagRing E) (i : ℕ) : FlagRing E := { r with slot := Function.update r.slot i none }

/-- A ring with its indices at the start and the first `i` slots clear. -/
structure Swept (n i : ℕ) (r : FlagRing E) : Prop where
  le : i ≤ n
  widx : r.widx = 0
  ridx : r.ridx = 0
  clear : ∀ j < i, r.slot j = none

theorem swept_rewind (r : FlagRing E) : r.rewind.Swept n 0 where
  le := Nat.zero_le n
  widx := rfl
  ridx := rfl
  clear := fun _ hj => absurd hj (Nat.not_lt_zero _)

theorem filled_wipe {i : ℕ} (hi : i < n) :
    (r.wipe i).filled n + ((r.slot i).toList : Multiset E) = r.filled n := by
  have hupdate := filled_update r (r.wipe i) none hi rfl
  rwa [Option.toList_none, Multiset.coe_nil, add_zero] at hupdate

theorem Swept.wipe {i : ℕ} (h : r.Swept n i) (hi : i < n) : (r.wipe i).Swept n (i + 1) where
  le := hi
  widx := h.widx
  ridx := h.ridx
  clear := by
    intro j hj
    show Function.update r.slot i none j = none
    by_cases hji : j = i
    · rw [hji, Function.update_self]
    · rw [Function.update_of_ne hji]
      exact h.clear j (by omega)

/-- Clearing a slot that is clear changes nothing. -/
theorem wipe_eq_self {i : ℕ} (h : r.slot i = none) : r.wipe i = r := by
  unfold wipe
  rw [Function.update_eq_self_iff.mpr h.symm]

/-- Cleared to its end, the ring is an empty one. -/
theorem Swept.ok (h : r.Swept n n) (hn : 0 < n) : r.Ok n := by
  apply Holds.ok (q := [])
  refine ⟨by rw [h.ridx]; exact hn, Nat.zero_le n, ?_, ?_⟩
  · rw [h.widx, h.ridx]
    exact (Nat.zero_mod n).symm
  · intro j hj
    rw [h.ridx, Nat.zero_add, Nat.mod_eq_of_lt hj, h.clear j hj]
    rfl

end FlagRing
