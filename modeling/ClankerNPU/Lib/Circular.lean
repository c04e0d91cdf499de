import Mathlib.Data.List.Basic
import Mathlib.Data.List.Perm.Basic
import Mathlib.Data.Nat.ModEq
import Mathlib.Logic.Function.Basic

/-! # Circular buffers

    A ring of `n` cells, read through a start index and a count. The
    cells in use are a `window`: the list of the cells met when walking
    from the start index, wrapping at `n`. The lemmas say how a window
    grows at either end, splits in two and ignores writes outside it. -/

namespace Circular

variable {α : Type*}

/-! ## Indices -/

/-- The index after `i` in a ring whose last index is `last`. -/
def next (last i : ℕ) : ℕ := if i = last then 0 else i + 1

theorem next_eq_mod {last i : ℕ} (h : i ≤ last) : next last i = (i + 1) % (last + 1) := by
  unfold next
  split
  · next heq => subst heq; simp
  · next hne => rw [Nat.mod_eq_of_lt]; omega

theorem next_pred_eq_mod {n i : ℕ} (h : i < n) : next (n - 1) i = (i + 1) % n := by
  have hn : n - 1 + 1 = n := by omega
  rw [next_eq_mod (by omega), hn]

/-- The number of cells from `r` up to `w`, where two equal indices
    stand for a full ring. -/
def used (n r w : ℕ) : ℕ := if r = w then n else (w + n - r) % n

theorem used_pos {n r w : ℕ} (hr : r < n) (hw : w < n) : 0 < used n r w := by
  unfold used
  split
  · omega
  · next hne =>
    by_cases hlt : r < w
    · have hsub : w + n - r = (w - r) + n := by omega
      rw [hsub, Nat.add_mod_right, Nat.mod_eq_of_lt (by omega)]
      omega
    · rw [Nat.mod_eq_of_lt (by omega)]
      omega

theorem used_le {n r w : ℕ} (hr : r < n) : used n r w ≤ n := by
  unfold used
  split
  · exact le_rfl
  · exact (Nat.mod_lt _ (by omega)).le

/-- The second index is the first one advanced by the cells in use. -/
theorem add_used_mod {n r w : ℕ} (hr : r < n) (hw : w < n) : (r + used n r w) % n = w := by
  unfold used
  split
  · next heq => rw [← heq, Nat.add_mod_right, Nat.mod_eq_of_lt hr]
  · rw [Nat.add_mod_mod]
    have hsum : r + (w + n - r) = w + n := by omega
    rw [hsum, Nat.add_mod_right, Nat.mod_eq_of_lt hw]

/-- Advancing an index by between one cell and a whole turn uses that
    many cells. -/
theorem used_add_mod {n r k : ℕ} (hr : r < n) (hk : 0 < k) (hkn : k ≤ n) :
    used n r ((r + k) % n) = k := by
  unfold used
  rcases Nat.lt_or_ge (r + k) n with hlt | hge
  · rw [Nat.mod_eq_of_lt hlt, if_neg (by omega)]
    have hsum : r + k + n - r = k + n := by omega
    rw [hsum, Nat.add_mod_right, Nat.mod_eq_of_lt (by omega)]
  · have hmod : (r + k) % n = r + k - n := by
      rw [Nat.mod_eq_sub_mod hge, Nat.mod_eq_of_lt (by omega)]
    rw [hmod]
    split
    · omega
    · have hsum : r + k - n + n - r = k := by omega
      rw [hsum, Nat.mod_eq_of_lt (by omega)]

theorem mod_add_mod_eq {n r i j : ℕ} : ((r + i) % n + j) % n = (r + (i + j)) % n := by
  rw [Nat.mod_add_mod, Nat.add_assoc]

/-- Two offsets below the ring size name the same cell only if equal. -/
theorem offset_injective {n r i j : ℕ} (hi : i < n) (hj : j < n)
    (h : (r + i) % n = (r + j) % n) : i = j := by
  have hmod : i ≡ j [MOD n] := Nat.ModEq.add_left_cancel' r h
  exact Nat.ModEq.eq_of_lt_of_lt hmod hi hj

/-! ## Windows -/

/-- The `k` cells of a ring of `n` cells from index `r` on. -/
def window (cell : ℕ → α) (n r k : ℕ) : List α :=
  (List.range k).map fun j => cell ((r + j) % n)

@[simp] theorem window_zero (cell : ℕ → α) (n r : ℕ) : window cell n r 0 = [] := rfl

@[simp] theorem length_window (cell : ℕ → α) (n r k : ℕ) : (window cell n r k).length = k := by
  simp [window]

/-- One more cell at the far end. -/
theorem window_succ (cell : ℕ → α) (n r k : ℕ) :
    window cell n r (k + 1) = window cell n r k ++ [cell ((r + k) % n)] := by
  simp [window, List.range_succ]

/-- A window splits at any point. -/
theorem window_add (cell : ℕ → α) (n r i j : ℕ) :
    window cell n r (i + j) = window cell n r i ++ window cell n ((r + i) % n) j := by
  induction j with
  | zero => simp
  | succ j ih =>
    rw [← Nat.add_assoc, window_succ, ih, window_succ, List.append_assoc, mod_add_mod_eq]

theorem window_one (cell : ℕ → α) {n r : ℕ} (hr : r < n) : window cell n r 1 = [cell r] := by
  simp [window, Nat.mod_eq_of_lt hr]

/-- Two rings that agree on a window's cells have the same window. -/
theorem window_congr {cell cell' : ℕ → α} {n r k : ℕ}
    (h : ∀ j < k, cell ((r + j) % n) = cell' ((r + j) % n)) :
    window cell n r k = window cell' n r k := by
  unfold window
  exact List.map_congr_left fun j hj => h j (List.mem_range.mp hj)

/-- A write past the end of a window leaves the window alone. -/
theorem window_update_of_outside (cell : ℕ → α) {n r k d : ℕ} (v : α) (hkd : k ≤ d)
    (hdn : d < n) :
    window (Function.update cell ((r + d) % n) v) n r k = window cell n r k := by
  refine window_congr fun j hj => ?_
  refine Function.update_of_ne ?_ _ _
  intro heq
  have := offset_injective (by omega) hdn heq
  omega

/-- A whole turn meets every cell once, wherever it starts. -/
theorem window_full_perm (cell : ℕ → α) {n r : ℕ} (hr : r < n) :
    (window cell n r n).Perm ((List.range n).map cell) := by
  have hturn : n - r + r = n := by omega
  have hfrom : window cell n r n = window cell n r (n - r) ++ window cell n 0 r := by
    have hsplit := window_add cell n r (n - r) r
    rwa [hturn, Nat.add_sub_of_le hr.le, Nat.mod_self] at hsplit
  have hzero : window cell n 0 n = window cell n 0 r ++ window cell n r (n - r) := by
    have hsplit := window_add cell n 0 r (n - r)
    rwa [Nat.add_sub_of_le hr.le, Nat.zero_add, Nat.mod_eq_of_lt hr] at hsplit
  have hcells : window cell n 0 n = (List.range n).map cell := by
    unfold window
    refine List.map_congr_left fun j hj => ?_
    rw [Nat.zero_add, Nat.mod_eq_of_lt (List.mem_range.mp hj)]
  rw [hfrom, ← hcells, hzero]
  exact List.perm_append_comm

/-- A window of a ring that does not wrap is a plain run of cells. -/
theorem window_of_le (cell : ℕ → α) {n r k : ℕ} (h : r + k ≤ n) :
    window cell n r k = (List.range k).map fun j => cell (r + j) := by
  unfold window
  refine List.map_congr_left fun j hj => ?_
  have hj' := List.mem_range.mp hj
  rw [Nat.mod_eq_of_lt (by omega)]

end Circular
