import Mathlib.Data.List.Chain

/-! # Numbered fragments

    A message travels as fragments numbered from 0. In a stream in which
    a fragment other than the first always follows its predecessor, a
    piece that ends in fragment `i` and has `i + 1` entries is the whole
    beginning of one message. -/

namespace Fragments

variable {Message Entry : Type*} {tag : Entry → Option (Message × ℕ)}

/-- Where `e` is a later fragment of a message, `d` is the one before. -/
def Follows (tag : Entry → Option (Message × ℕ)) (d e : Entry) : Prop :=
  ∀ m i, tag e = some (m, i + 1) → tag d = some (m, i)

/-- A piece of the stream as long as its last fragment's number says
    holds the fragments from 0 on. -/
theorem tag_of_isChain {l : List Entry} (hchain : l.IsChain (Follows tag)) {e : Entry}
    {m : Message} {i : ℕ} (hlast : l.getLast? = some e) (htag : tag e = some (m, i))
    (hlen : l.length = i + 1) : ∀ k (hk : k < l.length), tag l[k] = some (m, k) := by
  induction l using List.reverseRecOn generalizing e i with
  | nil => cases hlast
  | append_singleton l d ih =>
    rw [List.getLast?_concat] at hlast
    obtain rfl := Option.some.inj hlast
    rw [List.length_append, List.length_singleton] at hlen
    have hlen : l.length = i := by omega
    intro k hk
    by_cases hend : k = l.length
    · subst hend
      simp [htag, hlen]
    · rw [List.length_append, List.length_singleton] at hk
      have hk : k < l.length := by omega
      obtain ⟨j, rfl⟩ : ∃ j, i = j + 1 := ⟨i - 1, by omega⟩
      -- the entry before the last carries the number before
      have hne : l ≠ [] := by
        intro hnil
        rw [hnil] at hlen
        cases hlen
      have hprev : Follows tag (l.getLast hne) d := by
        have := hchain.rel_getLast_head_of_append hne (List.cons_ne_nil d [])
        simpa using this
      rw [List.getElem_append_left hk]
      exact ih hchain.left_of_append (List.getLast?_eq_getLast_of_ne_nil hne)
        (hprev m j htag) hlen k hk

end Fragments
