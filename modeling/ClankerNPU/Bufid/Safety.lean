import ClankerNPU.Bufid.IdRing

/-! # Safety of the id rings

    `bufid_pool_init` fills the rx buffer id ring and the tx token ring.
    From there the allocating hart, the returning hart and the holders
    of ids interleave freely; returners give back ids they hold. The
    stored ids and the outstanding ones stay exactly the initial ids. -/

namespace ClankerNPU.Bufid

open Circular

/-! ## The two rings of a build -/

/-- The rx buffer id ring and the tx token ring. AN7552 images have the
    first only. -/
inductive RingKind where
  | rx
  | tx
  deriving DecidableEq, Repr

/-- The number of slots. -/
def RingKind.entries (b : Build) : RingKind → ℕ
  | .rx => b.bufidPoolEntries
  | .tx => txFreeRingEntries

/-- The number of ids the ring is filled with. -/
def RingKind.ids (b : Build) : RingKind → ℕ
  | .rx => b.bufidPoolEntries
  | .tx => txTokenIds b

/-- The write index the ring starts with: 0 is a full ring. -/
def RingKind.startWidx (b : Build) : RingKind → ℕ
  | .rx => 0
  | .tx => if txTokenIds b = txFreeRingEntries then 0 else txTokenIds b

/-- `bufid_pool_init` for one ring; `sram` is what the slots it does not
    write hold. -/
def bufidPoolInit (b : Build) (k : RingKind) (sram : ℕ → ℕ) : IdRing where
  slot := fun i => if i < k.ids b then i else sram i
  ridx := 0
  widx := k.startWidx b
  alloc := .idle
  free := .idle

/-! ## The system -/

/-- A ring and the ids its holders have, those being returned included. -/
structure RingState where
  ring : IdRing
  outstanding : Multiset ℕ

/-- The steps: a hart enters a function under its mutex, or does the
    function's next access. -/
inductive RingAction where
  | allocStart (call : AllocCall)
  | alloc
  | freeStart (call : FreeCall)
  | free

/-- The ids the allocator's next access returns with. -/
def RingState.handed (last : ℕ) (s : RingState) : List ℕ := (s.ring.allocStep last).2.getD []

/-- The ids the returner's next access publishes. -/
def RingState.returned (last : ℕ) (s : RingState) : List ℕ := (s.ring.freeStep last).2.getD []

/-- One ring with one allocator and one returner at a time. -/
def ringSystem (b : Build) (k : RingKind) : StepSystem RingState RingAction where
  init := fun s => ∃ sram, s = ⟨bufidPoolInit b k sram, 0⟩
  step := fun s a s' =>
    match a with
    | .allocStart call =>
        s.ring.alloc = .idle ∧
        s' = { s with ring := { s.ring with alloc := call.start } }
    | .alloc =>
        s' = { ring := (s.ring.allocStep (k.entries b - 1)).1
               outstanding := s.outstanding + s.handed (k.entries b - 1) }
    | .freeStart call =>
        s.ring.free = .idle ∧
        (call.start.ids : Multiset ℕ) ≤ s.outstanding ∧
        s' = { s with ring := { s.ring with free := call.start } }
    | .free =>
        s' = { ring := (s.ring.freeStep (k.entries b - 1)).1
               outstanding := s.outstanding - s.returned (k.entries b - 1) }

/-! ## The invariant over runs -/

section invariant

variable {b : Build} {k : RingKind} {s s' : RingState}

theorem ids_le_entries (b : Build) (k : RingKind) : k.ids b ≤ k.entries b := by
  cases k with
  | rx => exact le_rfl
  | tx =>
    simp only [RingKind.ids, RingKind.entries, txTokenIds, txJumboFirst, txFreeRingEntries]
    split_ifs <;> omega

theorem ids_pos (b : Build) (k : RingKind) : 0 < k.ids b := by
  cases k with
  | rx =>
    simp only [RingKind.ids, Build.bufidPoolEntries]
    split_ifs <;> omega
  | tx =>
    simp only [RingKind.ids, txTokenIds]
    split_ifs <;> decide

/-- The start index is the ids the ring holds, modulo its slots. -/
theorem startWidx_eq (b : Build) (k : RingKind) : k.startWidx b = (0 + k.ids b) % k.entries b := by
  cases k with
  | rx => simp [RingKind.startWidx, RingKind.ids, RingKind.entries]
  | tx =>
    simp only [RingKind.startWidx, RingKind.ids, RingKind.entries, txTokenIds]
    split_ifs <;> first | rfl | contradiction

/-- The invariant of a reachable ring. -/
def SystemInv (b : Build) (k : RingKind) (s : RingState) : Prop :=
  RingInv (k.entries b) (Multiset.range (k.ids b)) s.outstanding s.ring

theorem systemInv_init (h : (ringSystem b k).init s) : SystemInv b k s := by
  obtain ⟨sram, rfl⟩ := h
  have hle := ids_le_entries b k
  have hpos := ids_pos b k
  have hused : used (k.entries b) 0 (k.startWidx b) = k.ids b := by
    rw [startWidx_eq]
    exact used_add_mod (by omega) hpos hle
  refine ⟨?_, ?_, ?_, ?_, ?_, trivial, trivial⟩
  · exact (by omega : 0 < k.entries b)
  · rw [bufidPoolInit, startWidx_eq]
    exact Nat.mod_lt _ (by omega)
  · have hcells : (bufidPoolInit b k sram).stored (k.entries b) = List.range (k.ids b) := by
      simp only [IdRing.stored, bufidPoolInit, hused]
      rw [window_of_le _ (by omega)]
      conv_rhs => rw [← List.map_id (List.range (k.ids b))]
      refine List.map_congr_left fun j hj => ?_
      have hj' := List.mem_range.mp hj
      simp [hj']
    rw [hcells, add_zero]
    rfl
  · rw [Multiset.card_range]
    exact hle
  · exact Multiset.zero_le _

theorem systemInv_step {a : RingAction} (h : SystemInv b k s)
    (hstep : (ringSystem b k).step s a s') : SystemInv b k s' := by
  unfold SystemInv at h ⊢
  cases a with
  | allocStart call =>
    obtain ⟨-, rfl⟩ := hstep
    have hok : AllocOk (k.entries b) { s.ring with alloc := call.start } := by
      cases call <;> trivial
    simpa using h.setAlloc call.start hok
  | alloc =>
    subst hstep
    exact h.allocStep
  | freeStart call =>
    obtain ⟨-, hheld, rfl⟩ := hstep
    have hok : FreeOk (k.entries b) { s.ring with free := call.start } := by
      cases call <;> trivial
    exact h.startFree call.start hheld hok
  | free =>
    subst hstep
    exact h.freeStep

theorem systemInv_of_reachable (h : (ringSystem b k).Reachable s) : SystemInv b k s :=
  h.invariant (fun _ => systemInv_init) (fun _ _ _ => systemInv_step)

end invariant

/-! ## Safety -/

/-- No id is lost, given twice or handed out while somebody holds it, and
    a full ring is told from an empty one. -/
structure IdRingSafe (b : Build) (k : RingKind) (s : RingState) : Prop where
  /-- the stored and the outstanding ids are the initial ids, each once -/
  conserved :
    (s.ring.stored (k.entries b) : Multiset ℕ) + s.outstanding = Multiset.range (k.ids b)
  /-- an id about to be handed out has no holder, and is handed out once -/
  fresh :
    (s.handed (k.entries b - 1)).Nodup ∧
      ∀ id ∈ s.handed (k.entries b - 1), id ∉ s.outstanding
  /-- in a ring that starts with equal indices, equal indices mean that
      every slot holds its id and nobody else holds one -/
  full : k.startWidx b = 0 → s.ring.ridx = s.ring.widx →
    (Multiset.range (k.entries b)).map s.ring.slot = Multiset.range (k.ids b) ∧
      s.outstanding = 0
  /-- in the other ring the indices never meet -/
  apart : k.startWidx b ≠ 0 → s.ring.ridx ≠ s.ring.widx

/-- The id rings are safe in every state that any interleaving of one
    allocator and one returner at a time reaches. -/
theorem idRing_safe (b : Build) (k : RingKind) (s : RingState)
    (h : (ringSystem b k).Reachable s) : IdRingSafe b k s := by
  have hinv := systemInv_of_reachable h
  have hcard := congrArg Multiset.card hinv.conserved
  simp only [IdRing.stored, Multiset.card_add, Multiset.coe_card, length_window,
    Multiset.card_range] at hcard
  have hfull : s.ring.ridx = s.ring.widx →
      used (k.entries b) s.ring.ridx s.ring.widx = k.entries b := fun heq => if_pos heq
  refine ⟨hinv.conserved, ?_, ?_, ?_⟩
  · have hnext : (s.ring.allocStep (k.entries b - 1)).1.stored (k.entries b)
        + (s.outstanding + s.handed (k.entries b - 1) : Multiset ℕ)
        = Multiset.range (k.ids b) := hinv.allocStep.conserved
    have hnd := hnext ▸ Multiset.nodup_range (k.ids b)
    obtain ⟨-, hheld, -⟩ := Multiset.nodup_add.mp hnd
    obtain ⟨-, hhanded, hdisj⟩ := Multiset.nodup_add.mp hheld
    exact ⟨hhanded, fun id hid hout => Multiset.disjoint_left.mp hdisj hout hid⟩
  · intro _ heq
    have hle := ids_le_entries b k
    have hzero : s.outstanding = 0 := by
      rw [hfull heq] at hcard
      exact Multiset.card_eq_zero.mp (by omega)
    refine ⟨?_, hzero⟩
    have hcons := hinv.conserved
    rw [hzero, add_zero, IdRing.stored, hfull heq,
      Multiset.coe_eq_coe.mpr (window_full_perm s.ring.slot hinv.ridx_lt)] at hcons
    exact hcons
  · intro hstart heq
    rw [hfull heq] at hcard
    have hlt : k.ids b < k.entries b := by
      refine lt_of_le_of_ne (ids_le_entries b k) fun hids => hstart ?_
      rw [startWidx_eq, hids, Nat.zero_add, Nat.mod_self]
    omega

/-- The allocator's next access, as a function on states. -/
def RingState.afterAlloc (last : ℕ) (s : RingState) : RingState where
  ring := (s.ring.allocStep last).1
  outstanding := s.outstanding + s.handed last

theorem reachable_afterAlloc {b : Build} {k : RingKind} {s : RingState}
    (h : (ringSystem b k).Reachable s) :
    (ringSystem b k).Reachable (s.afterAlloc (k.entries b - 1)) :=
  .step .alloc h rfl

/-- `buf_id_alloc_ring` on the ring as `bufid_pool_init` leaves it: six
    accesses later id 0 is out and the ring is safe. -/
theorem idRing_safe_first_alloc :
    ∃ s, (ringSystem ⟨.an7583, .mt7992⟩ .rx).Reachable s ∧ s.outstanding = {0} ∧
      IdRingSafe ⟨.an7583, .mt7992⟩ .rx s := by
  have h0 : (ringSystem ⟨.an7583, .mt7992⟩ .rx).Reachable
      ⟨{ bufidPoolInit ⟨.an7583, .mt7992⟩ .rx id with alloc := .one }, 0⟩ :=
    .step (.allocStart .one) (.init ⟨id, rfl⟩) ⟨rfl, rfl⟩
  have h3 := reachable_afterAlloc (reachable_afterAlloc (reachable_afterAlloc h0))
  have h6 := reachable_afterAlloc (reachable_afterAlloc (reachable_afterAlloc h3))
  exact ⟨_, h6, rfl, idRing_safe _ _ _ h6⟩

/-- The `s32` the single allocating functions return: the slot read as
    an `s16`, or -1 for a refusal. -/
def allocRet : List ℕ → ℤ
  | [] => -1
  | id :: _ => s16 id

/-- A handed id never reads as the refusal: the return value is the id. -/
theorem allocRet_handed {b : Build} {k : RingKind} {s : RingState} {id : ℕ}
    (h : (ringSystem b k).Reachable s) (hid : s.handed (k.entries b - 1) = [id]) :
    allocRet (s.handed (k.entries b - 1)) = id := by
  have hnext : (s.ring.allocStep (k.entries b - 1)).1.stored (k.entries b)
      + (s.outstanding + s.handed (k.entries b - 1) : Multiset ℕ)
      = Multiset.range (k.ids b) := (systemInv_of_reachable h).allocStep.conserved
  have hmem : id ∈ Multiset.range (k.ids b) := by
    rw [← hnext, hid]
    simp
  have hlt := Multiset.mem_range.mp hmem
  have hids : k.ids b ≤ 13312 := by
    cases k with
    | rx =>
      simp only [RingKind.ids, Build.bufidPoolEntries]
      split_ifs <;> omega
    | tx => exact ids_le_entries b .tx
  rw [hid, allocRet, s16_of_lt (by omega)]

end ClankerNPU.Bufid
