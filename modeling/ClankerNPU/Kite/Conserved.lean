import ClankerNPU.Kite.Ledger
import ClankerNPU.Kite.RxRuns
import Mathlib.Data.Finset.Image

/-! # The rx path with the reorder engine

    The two run side by side. A frame the classifier has goes into the
    engine; what the engine lets go of is with its hart again, which
    queues it for the host, hands it to the TDMA engine or gives its id
    back. Each operation of the engine is atomic. -/

open scoped BigOperators

open Custody LinkedList

namespace ClankerNPU.Kite

variable {cfg : RxCfg} {points : ℕ → ℕ → Prop} {ids : Finset ℕ} {s t : BaState} {h : HeldState}
  {hand : Multiset NodeRef} {k : BaKey}

/-! ## The system -/

/-- The rx path, the engine, and the ids the TDMA engine or the host has. -/
structure KiteState where
  rx : RxState
  ba : BaState
  sent : Multiset ℕ

/-- The engine as an operation finds it, with nothing let go of yet. -/
def BaState.cleared (s : BaState) : BaState := { s with outs := [] }

/-- The buffer a hart is to send on -/
def Out.bridged : Out → Option ℕ
  | .bridge _ bufId _ _ _ _ => some bufId
  | .free _ _ => none

/-- The buffer an operation gives back -/
def Out.freed : Out → Option ℕ
  | .bridge _ _ _ _ _ _ => none
  | .free _ bufId => some bufId

/-- The buffers an operation sends on go to its hart, which calls
    `pkt_enqueue_bridge`. -/
def bridgedIds (outs : List Out) : Multiset ℕ := (outs.filterMap Out.bridged : List ℕ)

def freedIds (outs : List Out) : Multiset ℕ := (outs.filterMap Out.freed : List ℕ)

/-- A frame for the engine is one the classifier has. -/
def KiteState.Has (s : KiteState) : BaAction → Prop
  | .frame _ pn _ => pn.bufId ∈ s.rx.away
  | _ => True

/-- After an operation that leaves the engine as `t`. -/
def KiteState.after (s : KiteState) (a : BaAction) (t : BaState) : KiteState where
  rx := { s.rx with
    pool := freedIds t.outs + s.rx.pool
    away := bridgedIds t.outs + (s.rx.away - cameIds s.ba.cleared a) }
  ba := t
  sent := s.sent

inductive KiteAct where
  | path (a : RxAct)
  | engine (a : BaAction)
  /-- `tdma_tx_submit`, or the host has the frame -/
  | submit (id : ℕ)
  /-- its id comes back -/
  | complete (id : ℕ)

/-- The runs from the boot on. The ids that are `away` from the rx path
    are those the harts have. -/
def kiteSystem (cfg : RxCfg) (ids : Finset ℕ) : StepSystem KiteState KiteAct where
  init s := (rxPathSystem cfg ids).init s.rx ∧ baSystem.init s.ba ∧ s.sent = 0
  step s a s' :=
    match a with
    | .path a => ∃ r, s.rx.next cfg a = some r ∧ s' = { s with rx := r }
    | .engine a => ∃ t, baSystem.step s.ba.cleared a t ∧ s.Has a ∧ s' = s.after a t
    | .submit id => id ∈ s.rx.away ∧ s' = { s with
        rx := { s.rx with away := s.rx.away.erase id }
        sent := id ::ₘ s.sent }
    | .complete id => id ∈ s.sent ∧ s' = { s with
        rx := { s.rx with pool := id ::ₘ s.rx.pool }
        sent := s.sent.erase id }

/-- The nodes of an entry: each MPDU with the MSDUs chained to it. -/
def entryNodes (s : BaState) (k : BaKey) : List NodeRef :=
  (walk (fun x => (s.node x).next) nodeFuel (s.entry k).head).flatMap fun x =>
    x :: walk (fun x => (s.node x).next) nodeFuel (s.node x).msduHead

/-- The nodes of all entries, as the pointers lead to them. -/
@[irreducible] def linkedNodes (s : BaState) : Multiset NodeRef :=
  ∑ k, (entryNodes s k : Multiset NodeRef)

/-- Where an rx buffer id can be: somewhere on the rx path, in a held
    node, or with the TDMA engine or the host. -/
inductive KitePlace where
  | path (p : RxPlace)
  | nodes
  | sent
  deriving DecidableEq

instance : Fintype KitePlace where
  elems := insert .nodes (insert .sent (Finset.univ.image .path))
  complete := by
    intro p
    cases p <;> simp

/-- What each place holds. -/
def KiteState.held (s : KiteState) : KitePlace → Multiset ℕ
  | .path p => s.rx.held p
  | .nodes => (linkedNodes s.ba).map fun x => (s.ba.node x).bufId
  | .sent => s.sent

/-- A step that loses no id and no node: on the rx path as before, and in
    the engine the frames start no chain in front of held numbers astray. -/
def KiteState.Careful (s : KiteState) : KiteAct → Prop
  | .path a => s.rx.Between a ∧ s.rx.Careful a
  | .engine a => chainGuard s.ba.cleared a
  | _ => True

abbrev kiteCarefulSystem (cfg : RxCfg) (ids : Finset ℕ) : StepSystem KiteState KiteAct :=
  (kiteSystem cfg ids).guarded KiteState.Careful

/-! ## The held nodes -/

theorem Rep.cleared (hrep : Rep s h hand) : Rep s.cleared { h with outs := [] } hand := by
  refine ⟨rfl, hrep.entry, ?_, hrep.pri, hrep.sec⟩
  have hsame : heldNodes { h with outs := [] } = heldNodes h := by
    unfold heldNodes
    rfl
  rw [hsame]
  exact hrep.nodes

/-- The pointers lead to the nodes the entry holds. -/
theorem Rep.entryNodes_eq (hrep : Rep s h hand) (k : BaKey) : entryNodes s k = (h.view k).refs := by
  have hrows := hrep.length_rows_lt k
  have hrow : ∀ r ∈ (h.view k).rows,
      r.mpdu.ref :: walk (fun x => (s.node x).next) nodeFuel (s.node r.mpdu.ref).msduHead =
        r.refs := by
    intro r hr
    obtain ⟨before, after, hsplit⟩ := List.append_of_mem hr
    have hlen := (List.subperm_of_subset (hrep.row_nodup hsplit).1
      fun x hx => View.mem_refs hr hx).length_le
    have hcard := hrep.card_le k
    rw [Row.refs_eq, List.length_cons] at hlen
    rw [Row.refs_eq, (((hrep.entry k).rows r hr).linked).walk_eq (by unfold nodeFuel; omega)]
  unfold entryNodes View.refs
  rw [(hrep.entry k).list.walk_eq (by rw [List.length_map]; omega), List.flatMap_map]
  exact List.flatMap_congr hrow

theorem Rep.linkedNodes_eq (hrep : Rep s h hand) : linkedNodes s = heldNodes h := by
  unfold linkedNodes heldNodes
  exact Finset.sum_congr rfl fun k _ => by rw [hrep.entryNodes_eq k]

/-- The books have what the pointers lead to. -/
theorem Rep.linkedNodes_map (hrep : Rep s h 0) :
    (linkedNodes s).map (fun x => (s.node x).bufId) = nodeIds s := by
  unfold nodeIds
  rw [hrep.linkedNodes_eq, hrep.inUse_eq, add_zero]

/-! ## The invariant -/

/-- What every state of a careful run keeps. -/
structure KiteInv (points : ℕ → ℕ → Prop) (ids : Finset ℕ) (s : KiteState) : Prop where
  path : RxPathInv points (∑ p, s.rx.held p) s.rx
  sum : ∑ p, s.rx.held p + nodeIds s.ba + s.sent = ids.val
  anchored : AllAnchored s.ba
  lost : ∀ b, (s.rx.band b).lost = []

theorem bridged_add_freed (outs : List Out) : bridgedIds outs + freedIds outs = outIds outs := by
  induction outs with
  | nil => rfl
  | cons o outs ih =>
    unfold bridgedIds freedIds outIds at ih ⊢
    cases o with
    | bridge k bufId len hdr band bss =>
      show ((bufId :: _ : List ℕ) : Multiset ℕ) + _ = ((bufId :: _ : List ℕ) : Multiset ℕ)
      rw [← Multiset.cons_coe, ← Multiset.cons_coe, Multiset.cons_add, ← ih]
      rfl
    | free band bufId =>
      show _ + ((bufId :: _ : List ℕ) : Multiset ℕ) = ((bufId :: _ : List ℕ) : Multiset ℕ)
      rw [← Multiset.cons_coe, ← Multiset.cons_coe, Multiset.add_cons, ← ih]
      rfl

/-- What the path holds, beside the pool and what the harts have. -/
theorem sum_held_pooled (s : RxState) (pool away : Multiset ℕ) :
    ∑ p, { s with pool := pool, away := away }.held p + (s.pool + s.away) =
      ∑ p, s.held p + (pool + away) := by
  rw [sum_held, sum_held]
  show pool + away + _ + ∑ b, s.bandHeld b + _ = _
  abel

/-- Ids move between the pool, the harts, the nodes and those who have
    them outside; the rest of the path stays as it is. -/
theorem KiteInv.moved {s : KiteState} {ba : BaState} {pool away sent : Multiset ℕ}
    (hinv : KiteInv points ids s) (hall : AllAnchored ba)
    (hsum : pool + away + nodeIds ba + sent =
      s.rx.pool + s.rx.away + nodeIds s.ba + s.sent) :
    KiteInv points ids ⟨{ s.rx with pool := pool, away := away }, ba, sent⟩ := by
  refine ⟨⟨rfl, hinv.path.fits, hinv.path.armed, hinv.path.pipe⟩, ?_, hall, hinv.lost⟩
  have hpooled := sum_held_pooled s.rx pool away
  rw [← hinv.sum]
  show (∑ p, { s.rx with pool := pool, away := away }.held p) + nodeIds ba + sent = _
  refine add_right_cancel (b := s.rx.pool + s.rx.away) ?_
  calc _ = (∑ p, { s.rx with pool := pool, away := away }.held p) +
          (s.rx.pool + s.rx.away) + (nodeIds ba + sent) := by abel
    _ = ∑ p, s.rx.held p + (pool + away + nodeIds ba + sent) := by
        rw [hpooled]
        abel
    _ = ∑ p, s.rx.held p + nodeIds s.ba + s.sent + (s.rx.pool + s.rx.away) := by
        rw [hsum]
        abel

/-- The places of the path, and the other two -/
theorem sum_kitePlace (held : KitePlace → Multiset ℕ) :
    ∑ p, held p = ∑ p, held (.path p) + held .nodes + held .sent := by
  show ∑ p ∈ insert .nodes (insert .sent (Finset.univ.image KitePlace.path)), held p = _
  rw [Finset.sum_insert (by simp), Finset.sum_insert (by simp),
    Finset.sum_image fun _ _ _ _ heq => KitePlace.path.inj heq]
  abel

/-- What the engine let go of is not what it is anchored by. -/
theorem AllAnchored.cleared (hall : AllAnchored s) : AllAnchored s.cleared := by
  obtain ⟨h, hrep, hanch⟩ := hall
  exact ⟨_, hrep.cleared, hanch⟩

/-- The frame an operation takes was with the harts. -/
theorem cameIds_le {s : KiteState} {a : BaAction} (hhas : s.Has a) :
    cameIds s.ba.cleared a ≤ s.rx.away := by
  cases a with
  | frame flags pn band =>
    unfold cameIds
    dsimp only
    split
    · exact Multiset.singleton_le.mpr hhas
    · exact Multiset.zero_le _
  | _ => exact Multiset.zero_le _

/-- An operation of the engine: what came in is in a node, or its hart has
    it back, or its id is in the pool. -/
theorem KiteInv.engine {s : KiteState} {a : BaAction} (hinv : KiteInv points ids s)
    (hids : ids.card ≤ 5600) (hguard : chainGuard s.ba.cleared a) (hhas : s.Has a)
    (hstep : baSystem.step s.ba.cleared a t) : KiteInv points ids (s.after a t) := by
  have hall := hinv.anchored.cleared
  obtain ⟨h, hrep, -⟩ := hall
  have hnodes : nodeIds s.ba.cleared = nodeIds s.ba := rfl
  -- no more nodes are in use than there are ids
  have hbufs : (heldNodes h + 0).card ≤ 5600 := by
    have hle : nodeIds s.ba ≤ ids.val := by
      rw [← hinv.sum]
      exact (Multiset.le_add_left _ _).trans (Multiset.le_add_right _ _)
    have hcard := Multiset.card_le_card hle
    rw [← hnodes, nodeIds, hrep.inUse_eq, Multiset.card_map] at hcard
    exact hcard.trans hids
  have hbooks := hrep.accounted_step (hrep.noded hbufs a) hstep
  unfold accounted at hbooks
  rw [hnodes, ← bridged_add_freed, show outIds s.ba.cleared.outs = 0 from rfl, zero_add] at hbooks
  refine hinv.moved (allAnchored_step hinv.anchored.cleared hguard hstep) ?_
  -- the harts have what came in and the rest
  obtain ⟨rest, hrest⟩ := Multiset.le_iff_exists_add.mp (cameIds_le hhas)
  rw [hrest, add_tsub_cancel_left]
  calc freedIds t.outs + s.rx.pool + (bridgedIds t.outs + rest) + nodeIds t + s.sent
      = bridgedIds t.outs + freedIds t.outs + nodeIds t + (s.rx.pool + rest + s.sent) := by abel
    _ = s.rx.pool + (cameIds s.ba.cleared a + rest) + nodeIds s.ba + s.sent := by
        rw [hbooks]
        abel

theorem KiteInv.next {s s' : KiteState} {a : KiteAct} (hinv : KiteInv cfg.EitherAddr ids s)
    (hids : ids.card ≤ 5600) (hcare : s.Careful a) (hstep : (kiteSystem cfg ids).step s a s') :
    KiteInv cfg.EitherAddr ids s' := by
  cases a with
  | path a =>
    obtain ⟨r, hnext, rfl⟩ := hstep
    have hpath := hinv.path.next hcare.1 (arms_eitherAddr cfg s.rx a) hnext
    have hsum : ∑ p, r.held p = ∑ p, s.rx.held p := hpath.sum
    refine ⟨by rw [hsum]; exact hpath, ?_, hinv.anchored, fun b => ?_⟩
    · rw [← hinv.sum, ← hsum]
    · rw [next_lost hcare.2 hnext b, hinv.lost b]
  | engine a =>
    obtain ⟨t, hop, hhas, rfl⟩ := hstep
    exact hinv.engine hids hcare hhas hop
  | submit id =>
    obtain ⟨hmem, rfl⟩ := hstep
    obtain ⟨rest, hrest⟩ := Multiset.exists_cons_of_mem hmem
    refine hinv.moved hinv.anchored ?_
    rw [hrest, Multiset.erase_cons_head, ← Multiset.singleton_add, ← Multiset.singleton_add]
    abel
  | complete id =>
    obtain ⟨hmem, rfl⟩ := hstep
    obtain ⟨rest, hrest⟩ := Multiset.exists_cons_of_mem hmem
    refine hinv.moved hinv.anchored ?_
    rw [hrest, Multiset.erase_cons_head, ← Multiset.singleton_add, ← Multiset.singleton_add]
    abel

theorem kiteInv_init {s : KiteState} (hs : (kiteSystem cfg ids).init s) :
    KiteInv points ids s := by
  obtain ⟨hrx, ⟨h, hrep, hnothing⟩, hsent⟩ := hs
  have hpath : RxPathInv points ids.val s.rx := rxPathInv_init hrx
  refine ⟨by rw [hpath.sum]; exact hpath, ?_, allAnchored_init hrep hnothing, fun b => ?_⟩
  · rw [hpath.sum, hrep.nodeIds_nothing fun k => (hnothing k).1, hsent, add_zero, add_zero]
  · obtain ⟨desc, hrx⟩ := hrx
    rw [hrx]
    rfl

theorem kiteInv_of_reachable (hids : ids.card ≤ 5600) {s : KiteState}
    (hs : (kiteCarefulSystem cfg ids).Reachable s) : KiteInv cfg.EitherAddr ids s := by
  refine hs.invariant (fun s h0 => ?_) fun s a s' hinv hstep => ?_
  · exact kiteInv_init (show (kiteSystem cfg ids).init s from h0)
  · exact hinv.next hids hstep.1 hstep.2

/-! ## Custody -/

/-- What the places hold together -/
theorem KiteInv.sum_held {s : KiteState} (hinv : KiteInv points ids s) :
    ∑ p, s.held p = ids.val := by
  obtain ⟨h, hrep, -⟩ := hinv.anchored
  rw [sum_kitePlace, ← hinv.sum]
  unfold KiteState.held
  dsimp only
  rw [hrep.linkedNodes_map]

/-- A run of the rx path alone, with the engine and those outside idle. -/
theorem kite_of_path {T : StepSystem RxState RxAct} {guard : KiteState → KiteAct → Prop}
    {ba : BaState} (hba : baSystem.init ba)
    (hinit : ∀ r, T.init r → (rxPathSystem cfg ids).init r)
    (hstep : ∀ r a r', T.step r a r' → guard ⟨r, ba, 0⟩ (.path a) ∧ r.next cfg a = some r')
    {r : RxState} (hr : T.Reachable r) :
    ((kiteSystem cfg ids).guarded guard).Reachable ⟨r, ba, 0⟩ := by
  refine hr.map (f := fun r => (⟨r, ba, 0⟩ : KiteState)) (fun r hr => ⟨hinit r hr, hba, rfl⟩) ?_
  intro r a r' _ h
  obtain ⟨hguard, hnext⟩ := hstep r a r' h
  exact .inr ⟨.path a, hguard, r', hnext, rfl⟩

theorem mem_linkedNodes {x : NodeRef} : x ∈ linkedNodes s ↔ ∃ k, x ∈ entryNodes s k := by
  unfold linkedNodes
  simp [Multiset.mem_sum]

/-- The frame core 2 has, parsed -/
def frame105 : KiteFrame := subframe 105 0 64

/-- It is inside its window, and a node of its entry has it. -/
theorem frame105_held :
    ∃ t, t = (kiteClassifyPn window100.cleared noFlags frame105 1).1 ∧
      ∃ k, ∃ x ∈ entryNodes t k, (t.node x).bufId = 64 := by
  refine ⟨_, rfl, frameKey noFlags frame105 1, ⟨.pri, 0⟩, ?_, ?_⟩
  · decide +kernel
  · decide +kernel

/-- A descriptor of length 0 -/
theorem oneDesc_0 : OneDesc 0x40000000#32 0 := ⟨by decide, by decide⟩

/-- The frame is queued for the host, and `pinode_drain` clears its node. -/
theorem dropped_reachable :
    ∃ r : RxState,
      ((rxPathSystem wideCfg (Finset.range 1600)).guarded RxState.Between).Reachable r ∧
        64 ∈ (r.band true).lost := by
  obtain ⟨r, pipe, desc, tbl, pool, hr, hw, -, hl⟩ := queued_reachable oneDesc_0
  let node := wholeNode 64 0 false
  let l : RxLocal := restLocal (oneSlot node) pipe desc tbl 1 true .idle pool
  let called : RxLocal := { l with band := { l.band with wholeDrain := .called } }
  let dropped : RxLocal := { l with band := { l.band with wholeDrain := .clear, lost := [64] } }
  have hcalled : Leads wideCfg (Finset.range 1600) true l called :=
    .wholeDrain (fun h => by cases h) rfl rfl
  obtain ⟨r, hr, -, hl⟩ := hcalled r hr hw hl
  have hhead : called.band.wholes.slot called.band.wholes.ridx = some node := oneSlot_slot node
  have hdrop : wholeDrainStep true called = some dropped := by
    unfold wholeDrainStep
    dsimp only [called]
    rw [hhead]
    exact if_pos rfl
  have hnext : r.next wideCfg (.wholeDrain true) = some (r.put true dropped) := by
    unfold RxState.next
    dsimp only
    rw [hl, hdrop]
    rfl
  have hbetween : r.Between (.wholeDrain true) := by
    show (r.on true).band.mail.early = false
    rw [hl]
    rfl
  refine ⟨_, .step (.wholeDrain true) hr.of_guarded ⟨hbetween, hnext⟩, ?_⟩
  rw [put_band]
  exact List.mem_singleton_self 64

end ClankerNPU.Kite
