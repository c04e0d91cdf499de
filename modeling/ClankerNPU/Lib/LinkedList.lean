import Mathlib.Data.List.Basic
import Mathlib.Data.List.Nodup

/-! # Linked lists on a heap

    Cells are named by references and hold a nullable reference to the
    next one. `Linked next head l` says that following `next` from
    `head` meets exactly the cells `l`. What a heap write leaves alone is
    read off the cells it touches: a list depends on the `next` fields of
    its own cells only. -/

namespace LinkedList

variable {Ref : Type*} {next next' : Ref → Option Ref} {head head' : Option Ref}
  {l l' p q : List Ref} {r b n : Ref}

/-- From `head`, following `next` meets exactly the cells `l`. -/
def Linked (next : Ref → Option Ref) : Option Ref → List Ref → Prop
  | head, [] => head = none
  | head, r :: l => head = some r ∧ Linked next (next r) l

@[simp] theorem linked_nil : Linked next head [] ↔ head = none := Iff.rfl

@[simp] theorem linked_cons :
    Linked next head (r :: l) ↔ head = some r ∧ Linked next (next r) l := Iff.rfl

theorem Linked.head_eq (h : Linked next head l) : head = l.head? := by
  cases l with
  | nil => exact h
  | cons r l => exact h.1

/-- A list is a function of its head. -/
theorem Linked.unique (h : Linked next head l) (h' : Linked next head l') : l = l' := by
  induction l generalizing head l' with
  | nil =>
    cases l' with
    | nil => rfl
    | cons r l' =>
      rw [linked_nil.mp h] at h'
      cases h'.1
  | cons r l ih =>
    cases l' with
    | nil =>
      rw [linked_nil.mp h'] at h
      cases h.1
    | cons r' l' =>
      have hr : r = r' := Option.some.inj (h.1.symm.trans h'.1)
      subst hr
      rw [ih h.2 h'.2]

/-- Only the cells of the list matter. -/
theorem Linked.congr (h : Linked next head l) (heq : ∀ r ∈ l, next' r = next r) :
    Linked next' head l := by
  induction l generalizing head with
  | nil => exact h
  | cons r l ih =>
    refine ⟨h.1, ?_⟩
    rw [heq r List.mem_cons_self]
    exact ih h.2 fun r' hr' => heq r' (List.mem_cons_of_mem _ hr')

/-- What follows a cell of a list is a list. -/
theorem Linked.after (h : Linked next head (p ++ r :: q)) : Linked next (next r) q := by
  induction p generalizing head with
  | nil => exact h.2
  | cons a p ih => exact ih h.2

/-- A list that ends is acyclic: no cell is met twice. -/
theorem Linked.nodup (h : Linked next head l) : l.Nodup := by
  induction l generalizing head with
  | nil => exact List.nodup_nil
  | cons r l ih =>
    refine List.nodup_cons.mpr ⟨?_, ih h.2⟩
    intro hmem
    -- after a second visit the same list would follow, and be shorter
    obtain ⟨p, q, rfl⟩ := List.append_of_mem hmem
    have hsame := h.2.unique h.2.after
    have hlen := congrArg List.length hsame
    simp only [List.length_append, List.length_cons] at hlen
    omega

/-- The last cell has no successor. -/
theorem Linked.next_last (h : Linked next head (p ++ [b])) : next b = none := h.after

/-- Linking a new cell in after `b`. -/
theorem Linked.insert_after (h : Linked next head (p ++ b :: q)) (hb : next' b = some n)
    (hn : next' n = next b) (hother : ∀ r ∈ p ++ q, next' r = next r) :
    Linked next' head (p ++ b :: n :: q) := by
  induction p generalizing head with
  | nil =>
    refine ⟨h.1, hb, ?_⟩
    rw [hn]
    exact h.2.congr hother
  | cons a p ih =>
    refine ⟨h.1, ?_⟩
    rw [hother a List.mem_cons_self]
    exact ih h.2 fun r hr => hother r (List.mem_cons_of_mem _ hr)

/-- Linking a new cell in before the first one. -/
theorem Linked.insert_first (h : Linked next head l) (hn : next' n = head)
    (hother : ∀ r ∈ l, next' r = next r) : Linked next' (some n) (n :: l) := by
  refine ⟨rfl, ?_⟩
  rw [hn]
  exact h.congr hother

/-- The cells met in at most `fuel` steps. -/
def walk (next : Ref → Option Ref) : ℕ → Option Ref → List Ref
  | 0, _ => []
  | _ + 1, none => []
  | fuel + 1, some r => r :: walk next fuel (next r)

/-- With a step for each cell the walk meets the whole list. -/
theorem Linked.walk_eq (h : Linked next head l) {fuel : ℕ} (hfuel : l.length ≤ fuel) :
    walk next fuel head = l := by
  induction l generalizing head fuel with
  | nil =>
    rw [linked_nil.mp h]
    cases fuel <;> rfl
  | cons r l ih =>
    obtain ⟨fuel, rfl⟩ : ∃ m, fuel = m + 1 := ⟨fuel - 1, by simp at hfuel; omega⟩
    rw [h.1, walk, ih h.2 (by simpa using hfuel)]

/-- Following `next` from `head` meets a cell. -/
inductive Meets (next : Ref → Option Ref) : Option Ref → Ref → Prop
  | here {r : Ref} : Meets next (some r) r
  | there {r x : Ref} : Meets next (next r) x → Meets next (some r) x

/-- From a list's head its cells are met, no other. -/
theorem Linked.meets_iff {x : Ref} (h : Linked next head l) : Meets next head x ↔ x ∈ l := by
  induction l generalizing head with
  | nil =>
    rw [linked_nil.mp h]
    constructor
    · rintro ⟨⟩
    · rintro ⟨⟩
  | cons r l ih =>
    rw [h.1, List.mem_cons, ← ih h.2]
    constructor
    · rintro (_ | hx)
      · exact .inl rfl
      · exact .inr hx
    · rintro (rfl | hx)
      · exact .here
      · exact .there hx

end LinkedList
