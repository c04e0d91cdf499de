import ClankerNPU.Config
import ClankerNPU.Lib.Circular
import ClankerNPU.Lib.StepSystem
import Mathlib.Algebra.Order.Group.Multiset
import Mathlib.Algebra.Order.Sub.Basic
import Mathlib.Data.Multiset.Range
import Mathlib.Tactic.Abel

/-! # The buffer id and tx token rings

    `npu_wifi_bufid.c` keeps free ids in a ring of 16-bit slots. One
    hart at a time takes ids at `ridx` under the alloc mutex, one hart
    at a time gives ids back at `widx` under the free mutex, and each
    side reads the other's index unlocked. Both sides are modelled at
    the granularity of single loads and stores: a program counter holds
    what a function has read so far, and one micro-step does one access.

    The counters the functions keep for the debug statistics are left
    out: no function reads them. -/

namespace ClankerNPU.Bufid

open Circular

/-! ## Program counters -/

/-- Where the hart that holds the alloc mutex stands. `one…` is
    `buf_id_alloc_ring` and `tx_token_alloc`, `take…` is `id_ring_take`. -/
inductive AllocPc where
  /-- nobody holds the mutex -/
  | idle
  /-- locked, nothing read -/
  | one
  /-- `ridx` read for the comparison with the last index -/
  | oneCmp (r : ℕ)
  /-- `next` computed -/
  | oneNext (nx : ℕ)
  /-- `widx == next` was false -/
  | oneChecked (nx : ℕ)
  /-- `ridx` read again, for the slot address -/
  | oneAddr (nx r : ℕ)
  /-- the slot is read -/
  | oneLoaded (nx id : ℕ)
  /-- locked for up to `max` ids, nothing read -/
  | take (max : ℕ)
  /-- `r = *ridx` -/
  | takeR (max r : ℕ)
  /-- in the loop: `ids` copied so far, `w` the snapshot of `*widx` -/
  | takeLoop (max r w : ℕ) (ids : List ℕ)
  deriving DecidableEq, Repr

/-- Where the hart that holds the free mutex stands. `ret…` is
    `buf_id_return`, `tok…` is `tx_token_free`, `put…` is `id_ring_put`. -/
inductive FreePc where
  /-- nobody holds the mutex -/
  | idle
  | ret (id : ℕ)
  /-- `widx` read once, used for the slot and for the new index -/
  | retW (w id : ℕ)
  | retStored (w id : ℕ)
  | tok (id : ℕ)
  /-- `widx` read for the slot address -/
  | tokW (w id : ℕ)
  | tokStored (id : ℕ)
  /-- `widx` read again, for the comparison with the last index -/
  | tokCmp (w id : ℕ)
  /-- the new index computed -/
  | tokNext (nx id : ℕ)
  | put (ids : List ℕ)
  /-- in the loop: `done` stored from the old `*widx` on, `rest` to come -/
  | putLoop (w : ℕ) (done rest : List ℕ)
  deriving DecidableEq, Repr

/-- The ids the returner is giving back. -/
def FreePc.ids : FreePc → List ℕ
  | .idle => []
  | .ret id | .retW _ id | .retStored _ id => [id]
  | .tok id | .tokW _ id | .tokStored id | .tokCmp _ id | .tokNext _ id => [id]
  | .put ids => ids
  | .putLoop _ done rest => done ++ rest

/-- The allocating functions: one id, or up to `max` ids. -/
inductive AllocCall where
  | one
  | upTo (max : ℕ)

/-- The returning functions. -/
inductive FreeCall where
  /-- `buf_id_return` -/
  | ret (id : ℕ)
  /-- `tx_token_free` -/
  | tok (id : ℕ)
  /-- `buf_id_return_n`, `tx_token_free_n` -/
  | put (ids : List ℕ)

/-- The alloc mutex has just been taken for a call. -/
def AllocCall.start : AllocCall → AllocPc
  | .one => .one
  | .upTo max => .take max

/-- The free mutex has just been taken for a call. -/
def FreeCall.start : FreeCall → FreePc
  | .ret id => .ret id
  | .tok id => .tok id
  | .put ids => .put ids

/-! ## The ring and its micro-steps -/

/-- One ring in shared memory, with the two harts working on it. -/
structure IdRing where
  slot : ℕ → ℕ
  ridx : ℕ
  widx : ℕ
  alloc : AllocPc
  free : FreePc

/-- The next access of the hart holding the alloc mutex. The second
    component is the ids the call returns with when this access is its
    last; an empty list is the refusal (`-1`, or `n = 0`). -/
def IdRing.allocStep (last : ℕ) (s : IdRing) : IdRing × Option (List ℕ) :=
  match s.alloc with
  | .idle => (s, none)
  | .one => ({ s with alloc := .oneCmp s.ridx }, none)
  | .oneCmp r => ({ s with alloc := .oneNext (if r = last then 0 else s.ridx + 1) }, none)
  | .oneNext nx =>
    if s.widx = nx then ({ s with alloc := .idle }, some [])
    else ({ s with alloc := .oneChecked nx }, none)
  | .oneChecked nx => ({ s with alloc := .oneAddr nx s.ridx }, none)
  | .oneAddr nx r => ({ s with alloc := .oneLoaded nx (s.slot r) }, none)
  | .oneLoaded nx id => ({ s with ridx := nx, alloc := .idle }, some [id])
  | .take max => ({ s with alloc := .takeR max s.ridx }, none)
  | .takeR max r => ({ s with alloc := .takeLoop max r s.widx [] }, none)
  | .takeLoop max r w ids =>
    if ids.length < max ∧ next last r ≠ w then
      ({ s with alloc := .takeLoop max (next last r) w (ids ++ [s.slot r]) }, none)
    else ({ s with ridx := r, alloc := .idle }, some ids)

/-- The next access of the hart holding the free mutex. The second
    component is the ids given back when this access publishes them. -/
def IdRing.freeStep (last : ℕ) (s : IdRing) : IdRing × Option (List ℕ) :=
  match s.free with
  | .idle => (s, none)
  | .ret id => ({ s with free := .retW s.widx id }, none)
  | .retW w id =>
    ({ s with slot := Function.update s.slot w id, free := .retStored w id }, none)
  | .retStored w id => ({ s with widx := next last w, free := .idle }, some [id])
  | .tok id => ({ s with free := .tokW s.widx id }, none)
  | .tokW w id =>
    ({ s with slot := Function.update s.slot w id, free := .tokStored id }, none)
  | .tokStored id => ({ s with free := .tokCmp s.widx id }, none)
  | .tokCmp w id => ({ s with free := .tokNext (if w = last then 0 else s.widx + 1) id }, none)
  | .tokNext nx id => ({ s with widx := nx, free := .idle }, some [id])
  | .put ids => ({ s with free := .putLoop s.widx [] ids }, none)
  | .putLoop w done (id :: rest) =>
    ({ s with
        slot := Function.update s.slot w id
        free := .putLoop (next last w) (done ++ [id]) rest }, none)
  | .putLoop w done [] => ({ s with widx := w, free := .idle }, some done)

/-- The allocator is in a function that takes one id. -/
def AllocPc.single : AllocPc → Bool
  | .one | .oneCmp _ | .oneNext _ | .oneChecked _ | .oneAddr _ _ | .oneLoaded _ _ => true
  | _ => false

/-- What an access of the allocator can do: go on, inside the same
    function, or return and release the mutex. -/
theorem IdRing.allocStep_cases (last : ℕ) {s : IdRing} (hbusy : s.alloc ≠ .idle) :
    ((s.allocStep last).2 = none ∧ (s.allocStep last).1.alloc ≠ .idle ∧
      (s.allocStep last).1.alloc.single = s.alloc.single) ∨
    (∃ ids, (s.allocStep last).2 = some ids ∧ (s.alloc.single = true → ids.length ≤ 1)) := by
  unfold IdRing.allocStep
  cases hpc : s.alloc with
  | idle => exact absurd hpc hbusy
  | oneNext nx =>
    by_cases hfull : s.widx = nx
    · right
      simp [hfull]
    · left
      simp [hfull, AllocPc.single]
  | takeLoop max r w ids =>
    by_cases hmore : ids.length < max ∧ next last r ≠ w
    · left
      simp [hmore, AllocPc.single]
    · right
      simp only [if_neg hmore]
      exact ⟨ids, rfl, fun h => nomatch h⟩
  | oneLoaded nx id =>
    right
    exact ⟨[id], rfl, fun _ => le_rfl⟩
  | _ =>
    left
    simp [AllocPc.single]

@[simp] theorem IdRing.allocStep_free (last : ℕ) (s : IdRing) :
    (s.allocStep last).1.free = s.free := by
  unfold IdRing.allocStep
  split <;> first | rfl | (split <;> rfl)

@[simp] theorem IdRing.freeStep_alloc (last : ℕ) (s : IdRing) :
    (s.freeStep last).1.alloc = s.alloc := by
  unfold IdRing.freeStep
  split <;> rfl

/-- What an access of the returner can do: go on with the same ids, or
    publish them all and release the mutex. -/
theorem IdRing.freeStep_cases (last : ℕ) {s : IdRing} (hbusy : s.free ≠ .idle) :
    ((s.freeStep last).2 = none ∧ (s.freeStep last).1.free ≠ .idle ∧
      (s.freeStep last).1.free.ids = s.free.ids) ∨
    ((s.freeStep last).2 = some s.free.ids ∧ (s.freeStep last).1.free = .idle) := by
  unfold IdRing.freeStep
  cases hpc : s.free with
  | idle => exact absurd hpc hbusy
  | putLoop w done rest =>
    cases rest with
    | nil =>
      right
      simp [FreePc.ids]
    | cons id rest =>
      left
      simp [FreePc.ids]
  | retStored w id =>
    right
    exact ⟨rfl, rfl⟩
  | tokNext nx id =>
    right
    exact ⟨rfl, rfl⟩
  | _ =>
    left
    simp [FreePc.ids]

/-- The ids stored in `[ridx, widx)`. -/
def IdRing.stored (n : ℕ) (s : IdRing) : List ℕ :=
  window s.slot n s.ridx (used n s.ridx s.widx)

/-! ## The ring invariant -/

/-- What the allocator has read agrees with the ring as it is now. -/
def AllocOk (n : ℕ) (s : IdRing) : Prop :=
  match s.alloc with
  | .idle | .one | .take _ => True
  | .oneCmp r => r = s.ridx
  | .oneNext nx => nx = next (n - 1) s.ridx
  | .oneChecked nx => nx = next (n - 1) s.ridx ∧ 1 < used n s.ridx s.widx
  | .oneAddr nx r =>
    nx = next (n - 1) s.ridx ∧ 1 < used n s.ridx s.widx ∧ r = s.ridx
  | .oneLoaded nx id =>
    nx = next (n - 1) s.ridx ∧ 1 < used n s.ridx s.widx ∧ id = s.slot s.ridx
  | .takeR _ r => r = s.ridx
  | .takeLoop _ r w ids =>
    ids = window s.slot n s.ridx ids.length ∧ r = (s.ridx + ids.length) % n ∧
      ∃ k, w = (s.ridx + k) % n ∧ ids.length < k ∧ k ≤ used n s.ridx s.widx

/-- What the returner has stored so far lies from `widx` on. -/
def FreeOk (n : ℕ) (s : IdRing) : Prop :=
  match s.free with
  | .idle | .ret _ | .tok _ | .put _ => True
  | .retW w _ => w = s.widx
  | .retStored w id => w = s.widx ∧ s.slot s.widx = id
  | .tokW w _ => w = s.widx
  | .tokStored id => s.slot s.widx = id
  | .tokCmp w id => w = s.widx ∧ s.slot s.widx = id
  | .tokNext nx id => nx = next (n - 1) s.widx ∧ s.slot s.widx = id
  | .putLoop w done _ =>
    w = (s.widx + done.length) % n ∧ window s.slot n s.widx done.length = done

/-- The invariant of a ring of `n` slots that shares the ids `all` with
    the holders of `held`. -/
structure RingInv (n : ℕ) (all held : Multiset ℕ) (s : IdRing) : Prop where
  ridx_lt : s.ridx < n
  widx_lt : s.widx < n
  conserved : (s.stored n : Multiset ℕ) + held = all
  fits : all.card ≤ n
  returns_held : (s.free.ids : Multiset ℕ) ≤ held
  allocOk : AllocOk n s
  freeOk : FreeOk n s

section steps

variable {n : ℕ} {all held : Multiset ℕ} {s : IdRing}

/-- The ring's occupancy. -/
theorem RingInv.used_bounds (h : RingInv n all held s) :
    0 < used n s.ridx s.widx ∧ used n s.ridx s.widx ≤ n :=
  ⟨used_pos h.ridx_lt h.widx_lt, used_le h.ridx_lt⟩

/-- What is stored and what is held together never exceed the ring, so
    there is room for every id a holder gives back. -/
theorem RingInv.room (h : RingInv n all held s) :
    used n s.ridx s.widx + s.free.ids.length ≤ n := by
  have hcard := congrArg Multiset.card h.conserved
  have hle := Multiset.card_le_card h.returns_held
  have hfit := h.fits
  simp only [IdRing.stored, Multiset.card_add, Multiset.coe_card, length_window] at hcard hle
  omega

/-- Taking the first `j` stored ids off the ring leaves a ring with the
    start index advanced by `j`, and those ids with the holders. -/
theorem RingInv.take (h : RingInv n all held s) (s' : IdRing) (j : ℕ)
    (hj : j < used n s.ridx s.widx) (hr : s'.ridx = (s.ridx + j) % n) (hw : s'.widx = s.widx)
    (hslot : s'.slot = s.slot) (hfree : s'.free = s.free) (halloc : AllocOk n s') :
    RingInv n all (held + window s.slot n s.ridx j) s' := by
  have hn : 0 < n := by have := h.ridx_lt; omega
  obtain ⟨hpos, hle⟩ := h.used_bounds
  have hused : used n s'.ridx s'.widx = used n s.ridx s.widx - j := by
    have hwidx : s.widx = ((s.ridx + j) % n + (used n s.ridx s.widx - j)) % n := by
      rw [mod_add_mod_eq, Nat.add_sub_of_le hj.le, add_used_mod h.ridx_lt h.widx_lt]
    rw [hr, hw]
    conv_lhs => rw [hwidx]
    exact used_add_mod (Nat.mod_lt _ hn) (by omega) (by omega)
  have hsplit : s.stored n = window s.slot n s.ridx j ++ s'.stored n := by
    unfold IdRing.stored
    rw [hused, hr, hslot, ← window_add, Nat.add_sub_of_le hj.le]
  refine ⟨hr ▸ Nat.mod_lt _ hn, hw ▸ h.widx_lt, ?_, h.fits, ?_, halloc, ?_⟩
  · rw [← h.conserved, hsplit, ← Multiset.coe_add]
    abel
  · rw [hfree]
    exact h.returns_held.trans (Multiset.le_add_right ..)
  · have := h.freeOk
    unfold FreeOk at this ⊢
    rw [hfree, hw, hslot]
    exact this

/-- A step of the allocator that only moves its program counter. -/
theorem RingInv.setAlloc (h : RingInv n all held s) (pc : AllocPc)
    (hok : AllocOk n { s with alloc := pc }) :
    RingInv n all (held + ([] : List ℕ)) { s with alloc := pc } := by
  rw [Multiset.coe_nil, add_zero]
  exact ⟨h.ridx_lt, h.widx_lt, h.conserved, h.fits, h.returns_held, hok, h.freeOk⟩

/-- Every access of the allocator keeps the invariant; the ids a call
    returns with join the held ones. -/
theorem RingInv.allocStep (h : RingInv n all held s) :
    RingInv n all (held + ((s.allocStep (n - 1)).2.getD [] : List ℕ))
      (s.allocStep (n - 1)).1 := by
  have hr := h.ridx_lt
  have hw := h.widx_lt
  obtain ⟨hpos, hle⟩ := h.used_bounds
  have hok := h.allocOk
  unfold IdRing.allocStep
  unfold AllocOk at hok
  -- one case for each place of the two functions; an id leaves at the last
  cases hpc : s.alloc with
  | idle => simpa using h
  | one => exact h.setAlloc (.oneCmp s.ridx) rfl
  | oneCmp r =>
    rw [hpc] at hok
    subst hok
    exact h.setAlloc (.oneNext (next (n - 1) s.ridx)) rfl
  | oneNext nx =>
    rw [hpc] at hok
    subst hok
    by_cases hfull : s.widx = next (n - 1) s.ridx
    · simp only [if_pos hfull]
      exact h.setAlloc .idle trivial
    · have hk : 1 < used n s.ridx s.widx := by
        by_contra hle1
        have hone : used n s.ridx s.widx = 1 := by omega
        apply hfull
        rw [← add_used_mod hr hw, hone, next_pred_eq_mod hr]
      simp only [if_neg hfull]
      exact h.setAlloc (.oneChecked _) ⟨rfl, hk⟩
  | oneChecked nx =>
    rw [hpc] at hok
    exact h.setAlloc (.oneAddr nx s.ridx) ⟨hok.1, hok.2, rfl⟩
  | oneAddr nx r =>
    rw [hpc] at hok
    obtain ⟨hnx, hk, rfl⟩ := hok
    exact h.setAlloc (.oneLoaded nx (s.slot s.ridx)) ⟨hnx, hk, rfl⟩
  | oneLoaded nx id =>
    rw [hpc] at hok
    obtain ⟨rfl, hk, rfl⟩ := hok
    -- the only id read is the one at the read index
    have htake := h.take { s with ridx := next (n - 1) s.ridx, alloc := .idle } 1 hk
      (next_pred_eq_mod hr) rfl rfl rfl trivial
    rwa [window_one s.slot hr] at htake
  | take max => exact h.setAlloc (.takeR max s.ridx) rfl
  | takeR max r =>
    rw [hpc] at hok
    subst hok
    refine h.setAlloc (.takeLoop max s.ridx s.widx []) ⟨rfl, ?_, used n s.ridx s.widx, ?_⟩
    · exact (Nat.mod_eq_of_lt hr).symm
    · exact ⟨(add_used_mod hr hw).symm, hpos, le_rfl⟩
  | takeLoop max r w ids =>
    rw [hpc] at hok
    obtain ⟨hids, hrd, k, hwk, hlt, hk⟩ := hok
    have hrn : r < n := hrd ▸ Nat.mod_lt _ (by omega)
    have hnext : next (n - 1) r = (s.ridx + (ids.length + 1)) % n := by
      rw [next_pred_eq_mod hrn, hrd, mod_add_mod_eq]
    by_cases hmore : ids.length < max ∧ next (n - 1) r ≠ w
    · -- `next` differs from the snapshot of `widx`, so one more id lies before it
      have hlt' : ids.length + 1 < k := by
        by_contra hge
        have hkeq : k = ids.length + 1 := by omega
        exact hmore.2 (by rw [hnext, hwk, hkeq])
      simp only [if_pos hmore]
      refine h.setAlloc (.takeLoop max (next (n - 1) r) w (ids ++ [s.slot r])) ?_
      refine ⟨?_, ?_, k, hwk, ?_, hk⟩
      · rw [List.length_append, List.length_singleton, window_succ, ← hids, ← hrd]
      · rw [List.length_append, List.length_singleton, hnext]
      · simpa using hlt'
    · simp only [if_neg hmore]
      have htake := h.take { s with ridx := r, alloc := .idle } ids.length
        (by omega) hrd rfl rfl rfl trivial
      rwa [← hids] at htake

/-- A returner enters a function with ids that are held. -/
theorem RingInv.startFree (h : RingInv n all held s) (pc : FreePc)
    (hheld : (pc.ids : Multiset ℕ) ≤ held) (hok : FreeOk n { s with free := pc }) :
    RingInv n all held { s with free := pc } :=
  ⟨h.ridx_lt, h.widx_lt, h.conserved, h.fits, hheld, h.allocOk, hok⟩

/-- A step of the returner that only moves its program counter. -/
theorem RingInv.setFree (h : RingInv n all held s) (pc : FreePc)
    (hids : pc.ids = s.free.ids) (hok : FreeOk n { s with free := pc }) :
    RingInv n all (held - ([] : List ℕ)) { s with free := pc } := by
  rw [Multiset.coe_nil, tsub_zero]
  exact h.startFree pc (hids ▸ h.returns_held) hok

/-- A slot write past the stored ids disturbs neither them nor what the
    allocator has read. -/
theorem RingInv.store (h : RingInv n all held s) (d v : ℕ) (pc : FreePc)
    (hd : used n s.ridx s.widx + d < n) (hids : pc.ids = s.free.ids)
    (hok : FreeOk n
      { s with slot := Function.update s.slot ((s.widx + d) % n) v, free := pc }) :
    RingInv n all (held - ([] : List ℕ))
      { s with slot := Function.update s.slot ((s.widx + d) % n) v, free := pc } := by
  have hr := h.ridx_lt
  have hw := h.widx_lt
  obtain ⟨hpos, -⟩ := h.used_bounds
  have haddr : (s.widx + d) % n = (s.ridx + (used n s.ridx s.widx + d)) % n := by
    rw [← mod_add_mod_eq, add_used_mod hr hw]
  have hwin : ∀ j ≤ used n s.ridx s.widx,
      window (Function.update s.slot ((s.widx + d) % n) v) n s.ridx j
        = window s.slot n s.ridx j := by
    intro j hj
    rw [haddr]
    exact window_update_of_outside s.slot v (by omega) hd
  rw [Multiset.coe_nil, tsub_zero]
  refine ⟨hr, hw, ?_, h.fits, hids ▸ h.returns_held, ?_, hok⟩
  · rw [← h.conserved]
    simp only [IdRing.stored, hwin _ le_rfl]
  · have hslot : Function.update s.slot ((s.widx + d) % n) v s.ridx = s.slot s.ridx := by
      have hone := hwin 1 hpos
      rw [window_one _ hr, window_one _ hr] at hone
      exact List.singleton_inj.mp hone
    have := h.allocOk
    unfold AllocOk at this ⊢
    cases hpc : s.alloc <;> simp only [hpc] at this ⊢ <;>
      first | exact this | (rw [hslot]; exact this) | skip
    obtain ⟨hids', hrd, k, hwk, hlt, hk⟩ := this
    exact ⟨by rw [hwin _ (by omega)]; exact hids', hrd, k, hwk, hlt, hk⟩

/-- Publishing `widx` past `j` ids stored behind it moves them from the
    holders into the ring. -/
theorem RingInv.publish (h : RingInv n all held s) (ids : List ℕ) {w : ℕ}
    (hfree : s.free.ids = ids) (hw : w = (s.widx + ids.length) % n)
    (hstored : window s.slot n s.widx ids.length = ids) :
    RingInv n all (held - ids) { s with widx := w, free := .idle } := by
  have hr := h.ridx_lt
  have hn : 0 < n := by omega
  obtain ⟨hpos, -⟩ := h.used_bounds
  have hroom := h.room
  rw [hfree] at hroom
  have hused : used n s.ridx w = used n s.ridx s.widx + ids.length := by
    have hwidx : w = (s.ridx + (used n s.ridx s.widx + ids.length)) % n := by
      rw [← mod_add_mod_eq, add_used_mod hr h.widx_lt, hw]
    rw [hwidx]
    exact used_add_mod hr (by omega) hroom
  have hheld : (ids : Multiset ℕ) ≤ held := hfree ▸ h.returns_held
  refine ⟨hr, hw ▸ Nat.mod_lt _ hn, ?_, h.fits, ?_, ?_, trivial⟩
  · have hgrow : ({ s with widx := w, free := .idle } : IdRing).stored n = s.stored n ++ ids := by
      unfold IdRing.stored
      simp only [hused, window_add, add_used_mod hr h.widx_lt, hstored]
    rw [hgrow, ← Multiset.coe_add, add_assoc, add_tsub_cancel_of_le hheld]
    exact h.conserved
  · exact Multiset.zero_le _
  · have := h.allocOk
    unfold AllocOk at this ⊢
    cases hpc : s.alloc <;> simp only [hpc, hused] at this ⊢ <;>
      first | exact this | (refine ⟨this.1, by omega, ?_⟩; exact this.2.2) | skip
    · exact ⟨this.1, by omega⟩
    · obtain ⟨hids', hrd, k, hwk, hlt, hk⟩ := this
      exact ⟨hids', hrd, k, hwk, hlt, by omega⟩

/-- Every access of the returner keeps the invariant; the ids a call
    publishes leave the held ones. -/
theorem RingInv.freeStep (h : RingInv n all held s) :
    RingInv n all (held - ((s.freeStep (n - 1)).2.getD [] : List ℕ))
      (s.freeStep (n - 1)).1 := by
  have hw := h.widx_lt
  have hroom := h.room
  have hok := h.freeOk
  have hzero : (s.widx + 0) % n = s.widx := Nat.mod_eq_of_lt hw
  unfold IdRing.freeStep
  unfold FreeOk at hok
  -- a store goes behind the write index; publishing gives the ids away
  cases hpc : s.free with
  | idle => simpa using h
  | ret id => exact h.setFree (.retW s.widx id) (by rw [hpc]; rfl) rfl
  | retW w id =>
    rw [hpc] at hok hroom
    subst hok
    have hstore := h.store 0 id (.retStored s.widx id)
      (by simp only [FreePc.ids, List.length_singleton] at hroom; omega) (by rw [hpc]; rfl)
      (by simp [FreeOk, Nat.mod_eq_of_lt hw])
    rwa [hzero] at hstore
  | retStored w id =>
    rw [hpc] at hok
    obtain ⟨rfl, hid⟩ := hok
    exact h.publish [id] (by rw [hpc]; rfl) (next_pred_eq_mod hw)
      (by rw [List.length_singleton, window_one _ hw, hid])
  | tok id => exact h.setFree (.tokW s.widx id) (by rw [hpc]; rfl) rfl
  | tokW w id =>
    rw [hpc] at hok hroom
    subst hok
    have hstore := h.store 0 id (.tokStored id)
      (by simp only [FreePc.ids, List.length_singleton] at hroom; omega) (by rw [hpc]; rfl)
      (by simp [FreeOk, Nat.mod_eq_of_lt hw])
    rwa [hzero] at hstore
  | tokStored id =>
    rw [hpc] at hok
    exact h.setFree (.tokCmp s.widx id) (by rw [hpc]; rfl) ⟨rfl, hok⟩
  | tokCmp w id =>
    rw [hpc] at hok
    obtain ⟨rfl, hid⟩ := hok
    exact h.setFree (.tokNext (next (n - 1) s.widx) id) (by rw [hpc]; rfl) ⟨rfl, hid⟩
  | tokNext nx id =>
    rw [hpc] at hok
    obtain ⟨rfl, hid⟩ := hok
    exact h.publish [id] (by rw [hpc]; rfl) (next_pred_eq_mod hw)
      (by rw [List.length_singleton, window_one _ hw, hid])
  | put ids =>
    exact h.setFree (.putLoop s.widx [] ids) (by rw [hpc]; rfl) ⟨hzero.symm, rfl⟩
  | putLoop w done rest =>
    rw [hpc] at hok hroom
    obtain ⟨hwd, hdone⟩ := hok
    cases rest with
    | nil => exact h.publish done (by rw [hpc]; simp [FreePc.ids]) hwd hdone
    | cons id rest =>
      simp only [FreePc.ids, List.length_append, List.length_cons] at hroom
      have hstore := h.store done.length id
        (.putLoop (next (n - 1) w) (done ++ [id]) rest) (by omega)
        (by rw [hpc]; simp [FreePc.ids]) ?_
      · rw [← hwd] at hstore
        exact hstore
      · have hwn : w < n := hwd ▸ Nat.mod_lt _ (by omega)
        refine ⟨?_, ?_⟩
        · rw [next_pred_eq_mod hwn, hwd, mod_add_mod_eq, List.length_append,
            List.length_singleton]
        · rw [List.length_append, List.length_singleton, window_succ,
            window_update_of_outside _ _ le_rfl (by omega), hdone]
          simp

end steps

end ClankerNPU.Bufid
