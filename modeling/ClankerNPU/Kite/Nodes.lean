import ClankerNPU.Kite.ChainRuns
import ClankerNPU.Kite.Sheds

/-! # The reorder nodes suffice

    The DRAM block of the second pool is there from the start. A node is
    in use from its alloc to its free: in an entry's list, or chained to a
    node that is no held MPDU, and then lost with its buffer. Every node in
    use carries a buffer id of its own, so with 5600 of them the two rings
    never run dry. -/

open LinkedList

namespace ClankerNPU.Kite

variable {s t u : BaState} {h h' h'' : HeldState} {hand lost : Multiset NodeRef} {k : BaKey}
  {x node : NodeRef} {pn : KiteFrame} {flags : RxFlags} {band tick : ℕ} {ids : Finset ℕ}

/-! ## The invariant -/

/-- Each node in use carries a buffer id of its own. -/
structure Carried (ids : Finset ℕ) (s : BaState) : Prop where
  known : ∀ x, InUse s x → (s.node x).bufId ∈ ids
  apart : ∀ x y, InUse s x → InUse s y → (s.node x).bufId = (s.node y).bufId → x = y

/-- What runs keep, with a buffer of its own for each node in use. -/
structure NodesInv (ids : Finset ℕ) (s : BaState) (h : HeldState) (lost : Multiset NodeRef) :
    Prop extends Chaining s h lost where
  carried : Carried ids s

theorem Carried.mono (hcarried : Carried ids s) (huse : ∀ x, InUse t x → InUse s x)
    (hframes : ∀ x, (t.node x).toKiteFrame = (s.node x).toKiteFrame) : Carried ids t := by
  have hbuf : ∀ x, (t.node x).bufId = (s.node x).bufId :=
    fun x => congrArg KiteFrame.bufId (hframes x)
  constructor
  · intro x hx
    rw [hbuf]
    exact hcarried.known x (huse x hx)
  · intro x y hx hy heq
    rw [hbuf, hbuf] at heq
    exact hcarried.apart x y (huse x hx) (huse y hy) heq

/-- Releases keep the invariant. -/
theorem NodesInv.sheds (hinv : NodesInv ids s h lost) (hrep : Rep t h' lost)
    (hreleased : Released s t h h') : NodesInv ids t h' lost where
  toChaining := hinv.toChaining.sheds hrep hreleased
  carried := hinv.carried.mono (fun _ hx => hreleased.inUse hinv.rep hrep hx) hreleased.frames

/-- No more nodes are in use than there are buffer ids. -/
theorem NodesInv.card_le (hinv : NodesInv ids s h lost) : (heldNodes h + lost).card ≤ ids.card := by
  have huse : ∀ x ∈ heldNodes h + lost, InUse s x := fun x hx => hinv.rep.inUse_iff.mpr hx
  have hnodup : ((heldNodes h + lost).map fun x => (s.node x).bufId).Nodup := by
    have hown : (heldNodes h + lost).Nodup := by
      have hall := hinv.rep.nodup
      rw [add_assoc] at hall
      exact (Multiset.nodup_add.mp hall).2.1
    exact hown.map_on fun x hx y hy heq => hinv.carried.apart x y (huse x hx) (huse y hy) heq
  have hsub : ((heldNodes h + lost).map fun x => (s.node x).bufId) ⊆ ids.val := by
    intro b hb
    obtain ⟨x, hx, rfl⟩ := Multiset.mem_map.mp hb
    exact hinv.carried.known x (huse x hx)
  have hle := Multiset.card_le_card ((Multiset.le_iff_subset hnodup).mpr hsub)
  rw [Multiset.card_map] at hle
  exact hle

/-! ## Holding -/

/-- A buffer id that exists and that no node in use carries. -/
def FreshId (ids : Finset ℕ) (s : BaState) (pn : KiteFrame) : Prop :=
  pn.bufId ∈ ids ∧ ∀ x, InUse s x → (s.node x).bufId ≠ pn.bufId

/-- A node is taken and filled with a frame whose buffer no node carries. -/
structure Taken (ids : Finset ℕ) (s t : BaState) (node : NodeRef) : Prop where
  carried : Carried ids t
  free : node ∈ freeNodes s
  inUse : ∀ x, InUse t x → x = node ∨ InUse s x

theorem NodesInv.taken (hinv : NodesInv ids s h lost) (hids : ids.card ≤ 5600)
    (hpn : FreshId ids s pn) (tick : ℕ) :
    ∃ node t, reorderNodeAlloc s = some (node, t) ∧
      Taken ids s (kiteFillNode t pn node tick) node := by
  obtain ⟨node, t, halloc⟩ := hinv.rep.nodeAlloc_isSome (hinv.card_le.trans hids)
  obtain ⟨hfilled, hfresh, -⟩ := hinv.toChaining.grasped halloc pn tick
  have hother : ∀ x, x ≠ node → (kiteFillNode t pn node tick).node x = s.node x := by
    intro x hx
    rw [fillNode_other hx, reorderNodeAlloc_node halloc]
  have huse : ∀ x, InUse (kiteFillNode t pn node tick) x → x = node ∨ InUse s x := by
    intro x hx
    rw [hfilled.inUse_iff, Multiset.mem_add, Multiset.mem_cons] at hx
    rw [hinv.rep.inUse_iff, Multiset.mem_add]
    tauto
  have hbuf : ((kiteFillNode t pn node tick).node node).bufId = pn.bufId :=
    congrArg KiteFrame.bufId hfresh.filled.frame
  refine ⟨node, t, halloc, ⟨?_, ?_⟩, ?_, huse⟩
  · intro x hx
    by_cases hnode : x = node
    · rw [hnode, hbuf]
      exact hpn.1
    · rw [hother x hnode]
      exact hinv.carried.known x ((huse x hx).resolve_left hnode)
  · intro x y hx hy heq
    -- the new node's buffer is nobody else's
    by_cases hxn : x = node
    · by_cases hyn : y = node
      · rw [hxn, hyn]
      · rw [hxn, hbuf, hother y hyn] at heq
        exact absurd heq.symm (hpn.2 y ((huse y hy).resolve_left hyn))
    · by_cases hyn : y = node
      · rw [hyn, hbuf, hother x hxn] at heq
        exact absurd heq (hpn.2 x ((huse x hx).resolve_left hxn))
      · rw [hother x hxn, hother y hyn] at heq
        exact hinv.carried.apart x y ((huse x hx).resolve_left hxn) ((huse y hy).resolve_left hyn)
          heq
  · rw [(hinv.rep.alloc_cons halloc).1]
    exact Multiset.mem_cons_self ..

/-- Holding a frame keeps the invariant and what is held; of the free nodes
    it takes one for the frame. -/
theorem NodesInv.hold (hinv : NodesInv ids s h lost) (hids : ids.card ≤ 5600)
    (hpn : FreshId ids s pn) (k : BaKey) (tick : ℕ) :
    ∃ h' lost', NodesInv ids (kiteHold s k pn tick) h' lost' ∧
      (∀ k', ∀ x ∈ (h.view k').refs, x ∈ (h'.view k').refs) ∧
      ∀ x ∈ freeNodes s, x ∈ freeNodes (kiteHold s k pn tick) ∨
        ((kiteHold s k pn tick).node x).toKiteFrame = pn := by
  obtain ⟨node, t, halloc, htaken⟩ := hinv.taken hids hpn tick
  obtain ⟨h', lost', hplaced, -⟩ := hinv.toChaining.hold halloc pn k tick
  refine ⟨h', lost', ⟨hplaced.chaining, htaken.carried.mono hplaced.inUse hplaced.frames⟩,
    hplaced.kept, fun x hx => ?_⟩
  by_cases hnode : x = node
  · right
    rw [hplaced.frames, hnode]
    exact (hinv.toChaining.grasped halloc pn tick).fresh.filled.frame
  · left
    by_contra hfree
    have hall : x ∈ allNodes := Multiset.mem_of_le hinv.rep.free_le hx
    have hold := hplaced.inUse x ⟨hall, hfree⟩
    exact ((htaken.inUse x hold).resolve_left hnode).2 hx

/-! ## Whole runs -/

/-- A frame carries a buffer id that exists and that no node in use does. -/
def idGuard (ids : Finset ℕ) (s : BaState) : BaAction → Prop
  | .frame _ pn _ => FreshId ids s pn
  | _ => True

/-- The rings hold each of their indices at most once, and what an entry
    holds is in neither ring and in no other entry. A free by a node's own
    words puts it back where it came from. -/
structure NodesSound (s : BaState) : Prop where
  rings : freeNodes s ≤ allNodes
  inUse : ∀ k x, HeldNode s k x → InUse s x
  apart : ∀ k k' x, HeldNode s k x → HeldNode s k' x → k' = k
  free : ∀ k x, HeldNode s k x →
    freeNodes (reorderNodeFree s (s.node x).idx (s.node x).pool) = x ::ₘ freeNodes s

theorem NodesInv.sound (hinv : NodesInv ids s h lost) : NodesSound s where
  rings := hinv.rep.free_le
  inUse k x hx := hinv.rep.inUse_of_refs (((hinv.rep.entry k).heldNode_iff).mp hx)
  apart k k' x hx hx' := by
    by_contra hk
    exact hinv.rep.not_held_of_ne hk (((hinv.rep.entry k).heldNode_iff).mp hx)
      (((hinv.rep.entry k').heldNode_iff).mp hx')
  free k x hx := by
    have hmem := ((hinv.rep.entry k).heldNode_iff).mp hx
    obtain ⟨r, hr, hx'⟩ := List.mem_flatMap.mp hmem
    obtain ⟨c, hc, rfl⟩ := List.mem_map.mp hx'
    obtain ⟨-, hidx, hpool, -⟩ := ((hinv.rep.entry k).rows r hr).filled c hc
    rw [hidx, hpool]
    exact hinv.rep.free_cons (hinv.rep.inUse_of_refs hmem)

/-- A step of a run, and where the nodes held before it are. -/
structure Stepped (ids : Finset ℕ) (s t : BaState) (a : BaAction) : Prop where
  inv : ∃ h lost, NodesInv ids t h lost
  returned : ∀ k x, HeldNode s k x → HeldNode t k x ∨ x ∈ freeNodes t ∨
    ∃ flags pn band, a = .frame flags pn band ∧ (t.node x).toKiteFrame = pn

theorem NodesInv.stepped_sheds (hinv : NodesInv ids s h lost) (hsheds : Sheds k s t) (a : BaAction) :
    Stepped ids s t a := by
  obtain ⟨h', hrep, hreleased⟩ := hsheds.rep hinv.rep
  refine ⟨⟨h', lost, hinv.sheds hrep hreleased⟩, fun k' x hx => ?_⟩
  rcases hinv.rep.returned hrep hreleased (((hinv.rep.entry k').heldNode_iff).mp hx) with hx | hx
  · exact .inl (((hrep.entry k').heldNode_iff).mpr hx)
  · exact .inr (.inl hx)

/-- The frame's buffer is still its own when the branches are reached. -/
theorem FreshId.released (hpn : FreshId ids s pn) (hinv : NodesInv ids s h lost)
    (hrep : Rep t h' lost) (hreleased : Released s t h h') : FreshId ids t pn := by
  refine ⟨hpn.1, fun x hx => ?_⟩
  rw [congrArg KiteFrame.bufId (hreleased.frames x)]
  exact hpn.2 x (hreleased.inUse hinv.rep hrep hx)

/-- A frame that ends up inside the window is held. -/
theorem NodesInv.stepped_hold (hinv : NodesInv ids s h lost) (hids : ids.card ≤ 5600)
    (hpn : FreshId ids s pn) (flags : RxFlags) (band : ℕ) (k : BaKey) :
    Stepped ids s (kiteHold (kiteArrival s k pn band).1 k pn flags.tick) (.frame flags pn band) := by
  obtain ⟨h', hrep, hreleased⟩ := (sheds_arrival s k pn band).rep hinv.rep
  obtain ⟨h'', lost'', hinv'', hkept, hfree⟩ := (hinv.sheds hrep hreleased).hold hids
    (hpn.released hinv hrep hreleased) k flags.tick
  refine ⟨⟨h'', lost'', hinv''⟩, fun k' x hx => ?_⟩
  rcases hinv.rep.returned hrep hreleased (((hinv.rep.entry k').heldNode_iff).mp hx) with hx | hx
  · exact .inl (((hinv''.rep.entry k').heldNode_iff).mpr (hkept k' x hx))
  · rcases hfree x hx with hx | hx
    · exact .inr (.inl hx)
    · exact .inr (.inr ⟨flags, pn, band, rfl, hx⟩)

theorem NodesInv.stepped_frame (hinv : NodesInv ids s h lost) (hids : ids.card ≤ 5600)
    (hpn : FreshId ids s pn) (flags : RxFlags) (band : ℕ) :
    Stepped ids s (kiteClassifyPn s flags pn band).1 (.frame flags pn band) := by
  unfold kiteClassifyPn
  split
  · exact hinv.stepped_sheds (k := frameKey flags pn band) (.emit _ .refl) _
  · dsimp only
    set k := baKey flags.dbdc band pn.wcid pn.tid
    split
    · exact hinv.stepped_sheds (sheds_flush s k) _
    · rw [kiteReorder_eq]
      have harrival := sheds_arrival s k pn band
      cases hst : (kiteArrival s k pn band).2 with
      | inOrder =>
        rw [kiteTake]
        exact hinv.stepped_sheds (harrival.trans (sheds_inOrder _ k pn)) _
      | duplicate =>
        rw [kiteTake]
        refine hinv.stepped_sheds (harrival.trans ?_) _
        exact .ctl _ (.emit _ .refl) (chain_seen ..)
      | behind =>
        rw [kiteTake]
        exact hinv.stepped_sheds (harrival.trans (sheds_behind _ k flags.fast pn band)) _
      | inside =>
        rw [kiteTake]
        exact hinv.stepped_hold hids hpn flags band k

theorem NodesInv.stepped {a : BaAction} (hinv : NodesInv ids s h lost) (hids : ids.card ≤ 5600)
    (hstep : (baSystem.guarded (idGuard ids)).step s a t) : Stepped ids s t a := by
  obtain ⟨hguard, hstep⟩ := hstep
  cases a with
  | frame flags pn band =>
    obtain ⟨-, -, rfl⟩ := hstep
    exact hinv.stepped_frame hids hguard flags band
  | timeout k now limit =>
    obtain rfl := hstep
    exact hinv.stepped_sheds (sheds_timeout s k now limit) _
  | bar k ssn =>
    obtain ⟨-, rfl⟩ := hstep
    exact hinv.stepped_sheds (sheds_bar s k ssn) _
  | setBa k band winSize ssn =>
    obtain rfl := hstep
    exact hinv.stepped_sheds (sheds_setBa s k band winSize ssn) _
  | reset k dir =>
    obtain rfl := hstep
    refine hinv.stepped_sheds (k := k) ?_ _
    exact .ctl _ (sheds_flush s k) (.inr rfl)
  | flush k =>
    obtain rfl := hstep
    exact hinv.stepped_sheds (sheds_flush s k) _

theorem nodesInv_of_reachable (hids : ids.card ≤ 5600)
    (hreach : (baSystem.guarded (idGuard ids)).Reachable s) : ∃ h lost, NodesInv ids s h lost := by
  induction hreach with
  | @init s hinit =>
    obtain ⟨h, hrep, hnothing⟩ := hinit
    have hnone : ∀ x, ¬InUse s x := by
      intro x hx
      rw [hrep.inUse_iff, add_zero] at hx
      obtain ⟨k, hx⟩ := mem_heldNodes.mp hx
      rw [View.refs, (hnothing k).1] at hx
      cases hx
    refine ⟨h, 0, ⟨hrep, fun k sub hsub => ?_⟩, fun x hx => absurd hx (hnone x),
      fun x _ hx => absurd hx (hnone x)⟩
    rw [(hnothing k).2.1] at hsub
    cases hsub
  | step a _ hstep ih =>
    obtain ⟨h, lost, hinv⟩ := ih
    exact (hinv.stepped hids hstep).inv

end ClankerNPU.Kite
