import Mathlib.Algebra.BigOperators.Group.List.Basic
import Mathlib.Algebra.Order.Ring.Nat
import Mathlib.Tactic.Common

/-! # Blocks in a row

    Blocks are laid out one behind the other from a position on. A block
    that pays leaves a guard in front of it, except at the very start. The
    placed blocks are in order and disjoint. A key puts them into groups;
    where every group's first block pays, different groups are a guard
    apart. -/

namespace Layout

variable {α G : Type*}

/-- A block: what it is for, whether it pays the guard, and its length. -/
structure Block (α : Type*) where
  tag : α
  pays : Bool
  len : ℕ

/-- A block in its place, from `start` up to `stop`. -/
structure Placed (α : Type*) where
  tag : α
  start : ℕ
  stop : ℕ

/-- Where a block starts, behind `pos`. -/
def Block.start (guard pos : ℕ) (b : Block α) : ℕ := if b.pays ∧ pos ≠ 0 then pos + guard else pos

def Block.stop (guard pos : ℕ) (b : Block α) : ℕ := b.start guard pos + b.len

/-- The blocks in their places, from `pos` on. -/
def place (guard : ℕ) : ℕ → List (Block α) → List (Placed α)
  | _, [] => []
  | pos, b :: bs =>
    ⟨b.tag, b.start guard pos, b.stop guard pos⟩ :: place guard (b.stop guard pos) bs

/-- What the blocks take with every guard that can be paid. -/
def need (guard : ℕ) (bs : List (Block α)) : ℕ :=
  (bs.map fun b => (if b.pays then guard else 0) + b.len).sum

/-- A block of another group than the one before it pays. -/
def Opens (key : α → G) : G → List (Block α) → Prop
  | _, [] => True
  | g, b :: bs => (key b.tag = g ∨ b.pays) ∧ Opens key (key b.tag) bs

section Positions

variable {guard pos : ℕ} {key : α → G} {g : G} {b : Block α} {bs bs' : List (Block α)}
  {p : Placed α}

theorem Block.le_start (guard pos : ℕ) (b : Block α) : pos ≤ b.start guard pos := by
  unfold start
  split_ifs
  · exact Nat.le_add_right pos guard
  · exact le_rfl

theorem Block.le_stop (guard pos : ℕ) (b : Block α) : pos ≤ b.stop guard pos :=
  (b.le_start guard pos).trans (Nat.le_add_right _ _)

theorem Block.stop_le (guard pos : ℕ) (b : Block α) :
    b.stop guard pos ≤ pos + ((if b.pays then guard else 0) + b.len) := by
  unfold stop start
  by_cases hpays : b.pays = true
  · simp only [hpays, true_and, if_true]
    split_ifs <;> omega
  · simp [hpays]

/-- Behind something, a block that pays leaves the guard. -/
theorem Block.start_pays (hpays : b.pays = true) (hpos : pos ≠ 0) :
    b.start guard pos = pos + guard := if_pos ⟨hpays, hpos⟩

@[simp] theorem need_nil (guard : ℕ) : need guard ([] : List (Block α)) = 0 := rfl

@[simp] theorem need_cons (guard : ℕ) (b : Block α) (bs : List (Block α)) :
    need guard (b :: bs) = (if b.pays then guard else 0) + b.len + need guard bs := by
  simp [need]

theorem need_append (guard : ℕ) (bs bs' : List (Block α)) :
    need guard (bs ++ bs') = need guard bs + need guard bs' := by
  simp [need]

/-- The guards and the lengths -/
theorem need_eq (guard : ℕ) (bs : List (Block α)) :
    need guard bs = guard * bs.countP Block.pays + (bs.map Block.len).sum := by
  induction bs with
  | nil => rfl
  | cons b bs ih =>
    rw [need_cons, ih, List.countP_cons, List.map_cons, List.sum_cons, Nat.mul_add]
    split_ifs <;> omega

/-- Blocks stay between where they begin and what they need. -/
theorem place_within (h : p ∈ place guard pos bs) :
    pos ≤ p.start ∧ p.start ≤ p.stop ∧ p.stop ≤ pos + need guard bs := by
  induction bs generalizing pos with
  | nil => cases h
  | cons b bs ih =>
    have hstop := b.stop_le guard pos
    rw [need_cons]
    rcases List.mem_cons.mp h with rfl | h
    · refine ⟨b.le_start guard pos, Nat.le_add_right _ _, ?_⟩
      show b.stop guard pos ≤ _
      omega
    · obtain ⟨hlow, hmid, hhigh⟩ := ih h
      exact ⟨(b.le_stop guard pos).trans hlow, hmid, by omega⟩

/-- Every block is placed in its length. -/
theorem place_lens (guard pos : ℕ) (bs : List (Block α)) :
    (place guard pos bs).map (fun p => (p.tag, p.stop - p.start)) =
      bs.map fun b => (b.tag, b.len) := by
  induction bs generalizing pos with
  | nil => rfl
  | cons b bs ih =>
    rw [place, List.map_cons, ih, List.map_cons, Block.stop, Nat.add_sub_cancel_left]

/-- Each block stops before the later ones start. -/
theorem place_ordered (guard pos : ℕ) (bs : List (Block α)) :
    (place guard pos bs).Pairwise fun p q => p.stop ≤ q.start := by
  induction bs generalizing pos with
  | nil => exact .nil
  | cons b bs ih => exact .cons (fun q hq => (place_within hq).1) (ih _)

/-- A block of another group than the one the blocks go on from is a guard
    behind it. -/
theorem place_guard (hopens : Opens key g bs) (hpos : pos ≠ 0) (h : p ∈ place guard pos bs)
    (hg : key p.tag ≠ g) : pos + guard ≤ p.start := by
  induction bs generalizing pos g with
  | nil => cases h
  | cons b bs ih =>
    obtain ⟨hb, hrest⟩ := hopens
    have hstop := b.le_stop guard pos
    by_cases hsame : key b.tag = g
    · -- still the same group: the block is in the rest
      rcases List.mem_cons.mp h with rfl | h
      · exact absurd hsame hg
      · have := ih hrest (by omega) h (by rwa [hsame])
        omega
    · -- the group changes here, with a guard
      have hstart := @Block.start_pays α guard pos b (hb.resolve_left hsame) hpos
      have hlen : b.stop guard pos = b.start guard pos + b.len := rfl
      rcases List.mem_cons.mp h with rfl | h
      · exact hstart.ge
      · have := (place_within h).1
        omega

/-- Blocks of the group the blocks go on from -/
theorem opens_same (hkey : ∀ b ∈ bs, key b.tag = g) (hrest : Opens key g bs') :
    Opens key g (bs ++ bs') := by
  induction bs with
  | nil => exact hrest
  | cons b bs ih =>
    have hb := hkey b List.mem_cons_self
    refine ⟨.inl hb, ?_⟩
    rw [hb]
    exact ih fun c hc => hkey c (List.mem_cons_of_mem _ hc)

/-- One group in front of others -/
theorem opens_append {k : G} (hkey : ∀ b ∈ bs, key b.tag = k) (hhead : ∀ b ∈ bs.head?, b.pays)
    (hrest : ∀ g, Opens key g bs') (g : G) : Opens key g (bs ++ bs') := by
  cases bs with
  | nil => exact hrest g
  | cons b bs =>
    refine ⟨.inr (hhead b rfl), ?_⟩
    rw [hkey b List.mem_cons_self]
    exact opens_same (fun c hc => hkey c (List.mem_cons_of_mem _ hc)) (hrest k)

/-- Different groups are a guard apart. -/
theorem place_apart (hopens : Opens key g bs) (hlen : ∀ b ∈ bs, 0 < b.len) :
    (place guard pos bs).Pairwise fun p q =>
      key p.tag ≠ key q.tag → p.stop + guard ≤ q.start := by
  induction bs generalizing pos g with
  | nil => exact .nil
  | cons b bs ih =>
    have hpos : b.stop guard pos ≠ 0 := by
      have := hlen b List.mem_cons_self
      unfold Block.stop
      omega
    refine .cons (fun q hq hne => ?_) (ih hopens.2 fun b hb => hlen b (List.mem_cons_of_mem _ hb))
    exact place_guard hopens.2 hpos hq hne.symm

end Positions

section Step

variable {β : Type*} {R : α → β → Prop} {as : List α} {bs : List β}

/-- Lists in step: each of one has its partner in the other. -/
theorem exists_of_forall₂ (h : List.Forall₂ R as bs) {a : α} (ha : a ∈ as) : ∃ b ∈ bs, R a b := by
  induction h with
  | nil => cases ha
  | @cons x y as bs hxy hrest ih =>
    rcases List.mem_cons.mp ha with rfl | ha
    · exact ⟨y, List.mem_cons_self, hxy⟩
    · obtain ⟨b, hb, hab⟩ := ih ha
      exact ⟨b, List.mem_cons_of_mem _ hb, hab⟩

/-- Lists in step, the second of which is in order -/
theorem pairwise_of_forall₂ {S : β → β → Prop} {T : α → α → Prop} (h : List.Forall₂ R as bs)
    (hp : bs.Pairwise S) (himp : ∀ a a' b b', R a b → R a' b' → S b b' → T a a') :
    as.Pairwise T := by
  induction h with
  | nil => exact .nil
  | @cons a b as bs hab hrest ih =>
    obtain ⟨hhead, htail⟩ := List.pairwise_cons.mp hp
    refine .cons (fun a' ha' => ?_) (ih htail)
    obtain ⟨b', hb', hab'⟩ := exists_of_forall₂ hrest ha'
    exact himp a a' b b' hab hab' (hhead b' hb')

/-- Lists in step with the same to show -/
theorem map_of_forall₂ {γ : Type*} {f : α → γ} {g : β → γ} (h : List.Forall₂ R as bs)
    (himp : ∀ a b, R a b → f a = g b) : as.map f = bs.map g := by
  induction h with
  | nil => rfl
  | cons hab hrest ih => rw [List.map_cons, List.map_cons, himp _ _ hab, ih]

end Step

end Layout
