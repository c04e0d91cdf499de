import Mathlib.Data.List.Basic
import Mathlib.Tactic.Common

/-! # Locks that must not be taken twice

    Straight-line code whose operations take or give back locks, seen by
    the one party that runs it. A list of operations is bracketed when it
    gives back what it takes and, started without the locks of a list,
    takes none it holds. -/

/-- What one operation does to the locks its party holds. -/
inductive LockAct (Lock : Type*) where
  | acquire (l : Lock)
  | release (l : Lock)
  | skip

namespace LockAct

variable {Lock : Type*} [DecidableEq Lock]

/-- The locks held after an operation, the latest first. -/
def after : LockAct Lock → List Lock → List Lock
  | acquire l, held => l :: held
  | release l, held => held.erase l
  | skip, held => held

/-- The lock an operation takes although it is held. -/
def clash : LockAct Lock → List Lock → List Lock
  | acquire l, held => if l ∈ held then [l] else []
  | _, _ => []

end LockAct

namespace Locks

variable {Lock Op State : Type*} [DecidableEq Lock] (act : Op → LockAct Lock)

/-- The locks held after some code. -/
def heldAfter : List Op → List Lock → List Lock
  | [], held => held
  | op :: code, held => heldAfter code ((act op).after held)

/-- The locks some code takes although they are held, in order. -/
def reacquired : List Op → List Lock → List Lock
  | [], _ => []
  | op :: code, held => (act op).clash held ++ reacquired code ((act op).after held)

variable {act} {S S' : List Lock} {l l' : Lock} {c c' : List Op} {op op' : Op}

theorem heldAfter_append (c c' : List Op) (held : List Lock) :
    heldAfter act (c ++ c') held = heldAfter act c' (heldAfter act c held) := by
  induction c generalizing held with
  | nil => rfl
  | cons op c ih => exact ih _

theorem reacquired_append (c c' : List Op) (held : List Lock) :
    reacquired act (c ++ c') held
      = reacquired act c held ++ reacquired act c' (heldAfter act c held) := by
  induction c generalizing held with
  | nil => rfl
  | cons op c ih =>
    rw [List.cons_append, reacquired, reacquired, ih, List.append_assoc]
    rfl

/-! ## Code that gives back what it takes -/

variable (act) in
/-- Started without the locks of a list, the code takes none it holds;
    the locks held after it are those held before. -/
structure Bracketed (S : List Lock) (c : List Op) : Prop where
  clear : ∀ held, (∀ l ∈ S, l ∉ held) → reacquired act c held = []
  restored : ∀ held, heldAfter act c held = held

namespace Bracketed

theorem nil (S : List Lock) : Bracketed act S [] :=
  ⟨fun _ _ => rfl, fun _ => rfl⟩

theorem skip (S : List Lock) (hop : act op = .skip) : Bracketed act S [op] := by
  refine ⟨fun held _ => ?_, fun held => ?_⟩
  · simp only [reacquired, hop, LockAct.clash, List.append_nil]
  · simp only [heldAfter, hop, LockAct.after]

theorem append (h : Bracketed act S c) (h' : Bracketed act S c') :
    Bracketed act S (c ++ c') := by
  refine ⟨fun held hfree => ?_, fun held => ?_⟩
  · rw [reacquired_append, h.restored, h.clear held hfree, h'.clear held hfree]
    rfl
  · rw [heldAfter_append, h.restored, h'.restored]

theorem flatMap {α : Type*} {xs : List α} {f : α → List Op}
    (h : ∀ x ∈ xs, Bracketed act S (f x)) : Bracketed act S (xs.flatMap f) := by
  induction xs with
  | nil => exact nil S
  | cons x xs ih =>
    rw [List.flatMap_cons]
    exact (h x List.mem_cons_self).append (ih fun y hy => h y (List.mem_cons_of_mem _ hy))

theorem mono (h : Bracketed act S c) (hS : ∀ l ∈ S, l ∈ S') : Bracketed act S' c :=
  ⟨fun held hfree => h.clear held fun l hl => hfree l (hS l hl), h.restored⟩

/-- A section between taking a lock and giving it back. -/
theorem critical (hop : act op = .acquire l) (hop' : act op' = .release l)
    (h : Bracketed act S c) (hl : l ∉ S) : Bracketed act (l :: S) (op :: (c ++ [op'])) := by
  refine ⟨fun held hfree => ?_, fun held => ?_⟩
  · have hnot : l ∉ held := hfree l List.mem_cons_self
    -- inside, the held locks are `l` and those from before
    have hin : ∀ k ∈ S, k ∉ l :: held := by
      intro k hk hmem
      rcases List.mem_cons.mp hmem with rfl | hmem
      · exact hl hk
      · exact hfree k (List.mem_cons_of_mem _ hk) hmem
    rw [reacquired, hop, reacquired_append]
    simp only [LockAct.clash, LockAct.after, if_neg hnot, h.clear _ hin, h.restored, reacquired,
      hop', List.append_nil]
  · rw [heldAfter, hop, heldAfter_append]
    simp only [LockAct.after, h.restored, heldAfter, hop', List.erase_cons_head]

end Bracketed

/-! ## Code that takes a lock -/

variable (act) in
/-- Whoever runs the code holding the lock takes a held lock. -/
def Takes (l : Lock) (c : List Op) : Prop :=
  ∀ held, l ∈ held → reacquired act c held ≠ []

namespace Takes

theorem head (hop : act op = .acquire l) : Takes act l (op :: c) := by
  intro held hmem
  rw [reacquired, hop]
  simp only [LockAct.clash, if_pos hmem]
  exact List.cons_ne_nil _ _

theorem left (h : Takes act l c) : Takes act l (c ++ c') := by
  intro held hmem hnil
  rw [reacquired_append, List.append_eq_nil_iff] at hnil
  exact h held hmem hnil.1

/-- Bracketed code in front changes nothing. -/
theorem right (hc : Bracketed act S c) (h : Takes act l c') : Takes act l (c ++ c') := by
  intro held hmem hnil
  rw [reacquired_append, hc.restored, List.append_eq_nil_iff] at hnil
  exact h held hmem hnil.2

/-- What is taken inside a section is taken by it. -/
theorem inside (hop : act op = .acquire l') (h : Takes act l c) :
    Takes act l (op :: (c ++ [op'])) := by
  intro held hmem hnil
  rw [reacquired, hop, List.append_eq_nil_iff, reacquired_append, List.append_eq_nil_iff] at hnil
  exact h _ (List.mem_cons_of_mem _ hmem) hnil.2.1

end Takes

/-! ## A condition at every operation -/

/-- From a state on, every operation of the code meets a condition, and
    the code ends in the state `last`. -/
def Along (exec : Op → State → State) (ok : State → Op → Prop) (last : State) :
    List Op → State → Prop
  | [], s => s = last
  | op :: code, s => ok s op ∧ Along exec ok last code (exec op s)

theorem Along.append {exec : Op → State → State} {ok : State → Op → Prop} {mid last s : State}
    (h : Along exec ok mid c s) (h' : Along exec ok last c' mid) :
    Along exec ok last (c ++ c') s := by
  induction c generalizing s with
  | nil =>
    obtain rfl : s = mid := h
    exact h'
  | cons op c ih => exact ⟨h.1, ih h.2⟩

/-- Code that returns to its state can be repeated. -/
theorem Along.flatMap {α : Type*} {exec : Op → State → State} {ok : State → Op → Prop} {s : State}
    {xs : List α} {f : α → List Op} (h : ∀ x ∈ xs, Along exec ok s (f x) s) :
    Along exec ok s (xs.flatMap f) s := by
  induction xs with
  | nil => exact rfl
  | cons x xs ih =>
    rw [List.flatMap_cons]
    exact (h x List.mem_cons_self).append (ih fun y hy => h y (List.mem_cons_of_mem _ hy))

end Locks
