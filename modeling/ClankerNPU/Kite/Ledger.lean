import ClankerNPU.Kite.EntryRuns
import ClankerNPU.Kite.Nodes

/-! # The books of the reorder engine

    A frame the engine takes is sent on, freed, or held in a node. In every
    run the buffers that came in are those that left and those that nodes
    in use carry: none is left out, and none leaves twice. -/

open Custody

namespace ClankerNPU.Kite

variable {s t : BaState} {h : HeldState} {lost : Multiset NodeRef} {k : BaKey} {v : View}
  {x : NodeRef} {m : Move} {f : View → Move} {came came' : Multiset ℕ} {pn : KiteFrame} {node : NodeRef}
  {band tick : ℕ} {flags : RxFlags} {ids : Finset ℕ}

/-! ## What left and what is in nodes -/

/-- The buffer that leaves -/
def Out.bufId : Out → ℕ
  | .bridge _ bufId _ _ _ _ => bufId
  | .free _ bufId => bufId

/-- The buffers that leave, sent on or freed -/
def outIds (outs : List Out) : Multiset ℕ := (outs.map Out.bufId : List ℕ)

/-- The buffers of rows -/
def rowIds (rows : List Row) : Multiset ℕ :=
  ((rows.flatMap Row.cells).map fun c => c.frame.bufId : List ℕ)

/-- The buffers of the nodes that are in neither ring -/
def nodeIds (s : BaState) : Multiset ℕ :=
  (allNodes - freeNodes s).map fun x => (s.node x).bufId

/-- What left so far, and what nodes carry -/
def accounted (s : BaState) : Multiset ℕ := outIds s.outs + nodeIds s

@[simp] theorem outIds_nil : outIds [] = 0 := rfl

@[simp] theorem outIds_append (o o' : List Out) : outIds (o ++ o') = outIds o + outIds o' := by
  unfold outIds
  rw [List.map_append, Multiset.coe_add]

@[simp] theorem outIds_bridge (k : BaKey) (pn : KiteFrame) (band bss : ℕ) (o : List Out) :
    outIds (bridgeOut k pn band bss :: o) = {pn.bufId} + outIds o := by
  unfold outIds
  rw [List.map_cons, ← Multiset.cons_coe, Multiset.singleton_add]
  rfl

@[simp] theorem outIds_free (band bufId : ℕ) (o : List Out) :
    outIds (.free band bufId :: o) = {bufId} + outIds o := by
  unfold outIds
  rw [List.map_cons, ← Multiset.cons_coe, Multiset.singleton_add]
  rfl

@[simp] theorem rowIds_nil : rowIds [] = 0 := rfl

@[simp] theorem rowIds_append (l l' : List Row) : rowIds (l ++ l') = rowIds l + rowIds l' := by
  unfold rowIds
  rw [List.flatMap_append, List.map_append, Multiset.coe_add]

/-- A release sends on what its rows carry. -/
@[simp] theorem outIds_rowOuts (k : BaKey) (v : View) (rows : List Row) :
    outIds (v.rowOuts k rows) = rowIds rows := by
  have hrow : ∀ r : Row, (r.outs k v.band).map Out.bufId = r.cells.map fun c => c.frame.bufId := by
    intro r
    unfold Row.outs
    rw [List.map_map]
    rfl
  unfold outIds rowIds View.rowOuts
  rw [List.map_flatMap, List.map_flatMap]
  simp only [hrow]

/-! ## What a move does to the books -/

/-- The move sends on and keeps what was held, and what came in. -/
def Move.Books (v : View) (m : Move) (came : Multiset ℕ) : Prop :=
  outIds m.outs + rowIds m.view.rows = rowIds v.rows + came

theorem books_andThen (hm : m.Books v came) (hf : (f m.view).Books m.view came') :
    (m.andThen f).Books v (came + came') := by
  unfold Move.Books at hm hf ⊢
  unfold Move.andThen
  dsimp only
  rw [outIds_append, add_assoc, hf, ← add_assoc, hm, add_assoc]

/-- Two moves that nothing comes in with. -/
theorem books_both (hm : m.Books v 0) (hf : (f m.view).Books m.view 0) :
    (m.andThen f).Books v 0 := books_andThen hm hf

/-- Writing words is in nobody's books. -/
theorem books_words {w : View} (hrows : w.rows = v.rows) : Move.Books v ⟨w, []⟩ 0 := by
  unfold Move.Books
  simp [hrows]

theorem books_flush (k : BaKey) (v : View) : (v.flush k).Books v 0 := by
  unfold Move.Books View.flush
  simp

theorem books_indicate (k : BaKey) (seq : ℕ) (v : View) : (v.indicate k seq).Books v 0 := by
  unfold Move.Books View.indicate
  dsimp only
  rw [outIds_rowOuts, ← rowIds_append, List.takeWhile_append_dropWhile, add_zero]

theorem books_moveLast (k : BaKey) (seq : ℕ) (v : View) : (v.moveLast k seq).Books v 0 := by
  unfold Move.Books View.moveLast
  dsimp only
  rw [outIds_rowOuts, ← rowIds_append, runOf_append_runRest, add_zero]

theorem books_advance (k : BaKey) (seq : ℕ) (v : View) : (v.advance k seq).Books v 0 :=
  books_both (books_indicate k seq v) (books_moveLast k seq _)

theorem books_stateUpdate (k : BaKey) (sn checkType : ℕ) (v : View) :
    (v.stateUpdate k sn checkType).Books v 0 := by
  unfold View.stateUpdate
  split
  · exact books_words rfl
  · split
    · exact books_words rfl
    · exact books_moveLast k v.ref { v with chain := none }

theorem books_timeout (k : BaKey) (now limit fuel : ℕ) (v : View) :
    (View.timeout k now limit fuel v).Books v 0 := by
  induction fuel generalizing v with
  | zero => exact books_words rfl
  | succ fuel ih =>
    unfold View.timeout
    split
    · exact books_words rfl
    · split
      · exact books_both (books_advance k _ v) (ih _)
      · exact books_words rfl

theorem books_slide (k : BaKey) (sn fuel : ℕ) (v : View) : (View.slide k sn fuel v).Books v 0 := by
  induction fuel generalizing v with
  | zero => exact books_words rfl
  | succ fuel ih =>
    unfold View.slide
    split
    · refine books_both (books_both (books_advance k _ v) ?_) (ih _)
      exact books_words rfl
    · exact books_words rfl

theorem books_arrive (k : BaKey) (pn : KiteFrame) (band : ℕ) (v : View) :
    (v.arrive k pn band).Books v 0 := by
  have hopen : Move.Books v (if v.state = 3 then v.openWindow k pn else ⟨v, []⟩) 0 := by
    split
    · exact books_both (books_flush k v) (books_words rfl)
    · exact books_words rfl
  unfold View.arrive
  refine books_both (books_both (books_both hopen ?_) (books_stateUpdate k _ _ _))
    (books_slide k _ _ _)
  exact books_words rfl

theorem books_setBaEntry (k : BaKey) (band winSize ssn : ℕ) (v : View) :
    (v.setBaEntry k band winSize ssn).Books v 0 := by
  refine books_both (books_flush k v) ?_
  split <;> exact books_words rfl

theorem books_resetBaEntry (k : BaKey) (dir : ℕ) (v : View) : (v.resetBaEntry k dir).Books v 0 :=
  books_both (books_flush k v) (books_words rfl)

theorem books_barInfo (k : BaKey) (ssn : ℕ) (v : View) : (v.barInfo k ssn).Books v 0 := by
  refine books_both (books_stateUpdate k ssn 3 v) ?_
  split
  · exact books_advance k _ _
  · exact books_words rfl

/-- A frame that is dropped or bridged past the window. -/
theorem outIds_drop (fast : Bool) (k : BaKey) (pn : KiteFrame) (band : ℕ) :
    outIds [if fast then bridgeOut k pn band pn.bss else .free band pn.bufId] = {pn.bufId} := by
  cases fast with
  | true => exact outIds_bridge k pn band pn.bss []
  | false => exact outIds_free band pn.bufId []

theorem books_duplicate (k : BaKey) (fast : Bool) (pn : KiteFrame) (band : ℕ) (v : View) :
    (v.duplicate k fast pn band).Books v {pn.bufId} := by
  unfold Move.Books View.duplicate
  dsimp only
  rw [outIds_drop, add_comm]
  rfl

theorem books_behind (k : BaKey) (fast : Bool) (pn : KiteFrame) (band : ℕ) (v : View) :
    (v.behind k fast pn band).Books v {pn.bufId} := by
  unfold Move.Books View.behind
  split
  · dsimp only
    rw [outIds_bridge, outIds_nil, add_zero, add_comm]
    rfl
  · dsimp only
    rw [outIds_drop, add_comm]
    rfl

/-- The frame leaves first, and what follows it without a gap after it. -/
theorem books_inOrder (k : BaKey) (pn : KiteFrame) (v : View) :
    (v.inOrder k pn).Books v {pn.bufId} := by
  have hrun : Move.Books v (if pn.amsdu ≤ 1 then v.moveLast k pn.sn else ⟨v, []⟩) 0 := by
    split
    · exact books_moveLast k pn.sn v
    · exact books_words rfl
  unfold Move.Books at hrun ⊢
  unfold View.inOrder
  dsimp only
  rw [outIds_bridge, add_assoc]
  rw [add_zero] at hrun
  rw [← hrun, add_comm]
  rfl

/-! ## On the heap -/

/-- Releases leave the frames in the nodes. -/
theorem Sheds.frame (hsheds : Sheds k s t) (x : NodeRef) :
    (t.node x).toKiteFrame = (s.node x).toKiteFrame := by
  induction hsheds with
  | refl => rfl
  | ctl c _ _ ih => exact ih
  | emit o _ ih => exact ih
  | head c band _ _ _ ih => exact (releaseMpdu_frame band _ x).trans ih

/-- The nodes in neither ring are the held and the lost ones. -/
theorem Rep.inUse_eq (hrep : Rep s h lost) : allNodes - freeNodes s = heldNodes h + lost := by
  rw [← hrep.nodes, add_assoc, add_tsub_cancel_left]

/-- No entry holds anything, so no node carries a buffer. -/
theorem Rep.nodeIds_nothing (hrep : Rep s h 0) (hnothing : ∀ k, (h.view k).rows = []) :
    nodeIds s = 0 := by
  have hheld : heldNodes h = 0 := by
    refine Multiset.eq_zero_of_forall_notMem fun x hx => ?_
    obtain ⟨k, hx⟩ := mem_heldNodes.mp hx
    rw [View.refs, hnothing k] at hx
    cases hx
  unfold nodeIds
  rw [hrep.inUse_eq, hheld]
  rfl

theorem Rep.rowIds_eq (hrep : Rep s h lost) (k : BaKey) :
    ((h.view k).refs : Multiset NodeRef).map (fun x => (s.node x).bufId) =
      rowIds (h.view k).rows := by
  have hrefs : (h.view k).refs = ((h.view k).rows.flatMap Row.cells).map Cell.ref := by
    unfold View.refs Row.refs
    rw [List.map_flatMap]
  unfold rowIds
  rw [hrefs, Multiset.map_coe, List.map_map]
  congr 1
  refine List.map_congr_left fun c hc => ?_
  obtain ⟨r, hr, hc⟩ := List.mem_flatMap.mp hc
  exact congrArg KiteFrame.bufId (((hrep.entry k).rows r hr).filled c hc).frame

/-- What a move does to its view's books it does to the heap's. -/
theorem Rep.books (hrep : Rep s h lost) (hrep' : Rep t (h.app k f) lost)
    (hsheds : Sheds k s t) (hbooks : (f (h.view k)).Books (h.view k) came) :
    accounted t = accounted s + came := by
  have hbuf : ∀ x, (t.node x).bufId = (s.node x).bufId :=
    fun x => congrArg KiteFrame.bufId (hsheds.frame x)
  have hnodes := congrArg (Multiset.map fun x => (s.node x).bufId)
    (heldNodes_set h k (f (h.view k)))
  rw [Multiset.map_add, Multiset.map_add, hrep.rowIds_eq k] at hnodes
  have hrows : (((f (h.view k)).view.refs : Multiset NodeRef).map fun x => (s.node x).bufId) =
      rowIds (f (h.view k)).view.rows := by
    have hafter := hrep'.rowIds_eq k
    rw [HeldState.app_view_self] at hafter
    simp only [hbuf] at hafter
    exact hafter
  rw [hrows] at hnodes
  unfold Move.Books at hbooks
  unfold accounted nodeIds
  rw [hrep.inUse_eq, hrep'.inUse_eq, hrep'.outs, hrep.outs]
  simp only [hbuf, HeldState.app, HeldState.set_outs, outIds_append, Multiset.map_add]
  generalize rowIds (h.view k).rows = a at hnodes hbooks
  generalize rowIds (f (h.view k)).view.rows = b at hnodes hbooks
  generalize outIds (f (h.view k)).outs = o at hbooks ⊢
  generalize Multiset.map (fun x => (s.node x).bufId) (heldNodes h) = n at hnodes ⊢
  generalize Multiset.map (fun x => (s.node x).bufId) (heldNodes (h.set k (f (h.view k)))) = n'
    at hnodes ⊢
  refine add_right_cancel (b := a) ?_
  calc outIds h.outs + o + (n' + Multiset.map (fun x => (s.node x).bufId) lost) + a
      = outIds h.outs + Multiset.map (fun x => (s.node x).bufId) lost + o + (n' + a) := by abel
    _ = outIds h.outs + Multiset.map (fun x => (s.node x).bufId) lost + n + (o + b) := by
        rw [hnodes]; abel
    _ = outIds h.outs + (n + Multiset.map (fun x => (s.node x).bufId) lost) + came + a := by
        rw [hbooks]; abel

/-! ## Holding a frame -/

/-- Neither the rings nor the frames change, and nothing leaves. -/
theorem accounted_congr (houts : t.outs = s.outs) (hpri : t.pri = s.pri) (hsec : t.sec = s.sec)
    (hframes : ∀ x, (t.node x).toKiteFrame = (s.node x).toKiteFrame) :
    accounted t = accounted s := by
  have hbuf : ∀ x, (t.node x).bufId = (s.node x).bufId :=
    fun x => congrArg KiteFrame.bufId (hframes x)
  unfold accounted nodeIds freeNodes
  simp only [houts, hpri, hsec, hbuf]

/-- The ring's node was nobody's, so filling it changes no node in use. -/
theorem Rep.bufId_fill (hrep : Rep s h lost) (halloc : reorderNodeAlloc s = some (node, t))
    (pn : KiteFrame) (tick : ℕ) (x : NodeRef) (hx : x ∈ allNodes - freeNodes s) :
    ((kiteFillNode t pn node tick).node x).bufId = (s.node x).bufId := by
  have hne : x ≠ node := by
    rintro rfl
    rw [Multiset.mem_sub_of_nodup nodup_allNodes, (hrep.alloc_cons halloc).1] at hx
    exact hx.2 (Multiset.mem_cons_self ..)
  rw [fillNode_other hne, reorderNodeAlloc_node halloc]

/-- The ring's node is in use with the frame's buffer. -/
theorem Rep.nodeIds_fill (hrep : Rep s h lost) (halloc : reorderNodeAlloc s = some (node, t))
    (pn : KiteFrame) (tick : ℕ) :
    nodeIds (kiteFillNode t pn node tick) = nodeIds s + {pn.bufId} := by
  have hinUse : allNodes - freeNodes t = node ::ₘ (allNodes - freeNodes s) := by
    rw [(hrep.nodeAlloc halloc).inUse_eq, hrep.inUse_eq, Multiset.add_cons]
  have hown : ((kiteFillNode t pn node tick).node node).bufId = pn.bufId := by
    unfold kiteFillNode BaState.setNode
    simp
  have hfree : freeNodes (kiteFillNode t pn node tick) = freeNodes t := rfl
  unfold nodeIds
  rw [hfree, hinUse, Multiset.map_cons, hown,
    Multiset.map_congr rfl (hrep.bufId_fill halloc pn tick), add_comm, Multiset.singleton_add]

/-- The node is linked in, or its number is held already: then it goes back
    to its ring, and the buffer leaves. -/
theorem Rep.accounted_insert (hrep : Rep s h lost)
    (halloc : reorderNodeAlloc s = some (node, t)) (k : BaKey) (pn : KiteFrame) (tick : ℕ) :
    accounted (kiteInsert (kiteFillNode t pn node tick) k pn node) = accounted s + {pn.bufId} := by
  have houts : (kiteFillNode t pn node tick).outs = s.outs :=
    (hrep.nodeAlloc halloc).outs.trans hrep.outs.symm
  have hback := (hrep.alloc_cons halloc).2
  have hfill := hrep.nodeIds_fill halloc pn tick
  have hsame := hrep.bufId_fill halloc pn tick
  have hkeeps := keepsNodes_insert (kiteFillNode t pn node tick) k pn node
  unfold kiteInsert at hkeeps ⊢
  dsimp only at hkeeps ⊢
  set u := kiteFillNode t pn node tick with hu
  split at hkeeps
  · next hheld =>
    have hfree : freeNodes (reorderNodeFree u node.idx node.pool) = freeNodes s := by
      rw [← hback, hu]
      cases node.pool <;> rfl
    have hnode : (reorderNodeFree u node.idx node.pool).node = u.node := by
      cases node.pool <;> rfl
    have hleft : (reorderNodeFree u node.idx node.pool).outs = u.outs := by
      cases node.pool <;> rfl
    have hids : nodeIds ((reorderNodeFree u node.idx node.pool).emit
        (.free (u.entry k).band pn.bufId)) = nodeIds s := by
      unfold nodeIds
      change ((allNodes - freeNodes (reorderNodeFree u node.idx node.pool)).map fun x =>
        ((reorderNodeFree u node.idx node.pool).node x).bufId) = _
      rw [hfree, hnode]
      exact Multiset.map_congr rfl hsame
    rw [if_pos hheld]
    unfold accounted
    rw [hids]
    unfold BaState.emit
    dsimp only
    rw [hleft, houts, outIds_append, outIds_free, outIds_nil, add_zero]
    abel
  · next hnew =>
    rw [if_neg hnew]
    have hlink : ∀ prev cur, (kiteLink u k pn node prev cur).outs = u.outs ∧
        (kiteLink u k pn node prev cur).pri = u.pri ∧
          (kiteLink u k pn node prev cur).sec = u.sec := by
      intro prev cur
      unfold kiteLink linkFrom
      cases prev <;> exact ⟨rfl, rfl, rfl⟩
    obtain ⟨hleft, hpri, hsec⟩ := hlink _ _
    rw [accounted_congr hleft hpri hsec fun x => (hkeeps x).1]
    unfold accounted
    rw [hfill, houts, add_assoc]

/-- A frame that gets a node is held in it, chained to a node, or freed. -/
theorem Rep.accounted_hold (hrep : Rep s h lost) (halloc : reorderNodeAlloc s = some (node, t))
    (k : BaKey) (pn : KiteFrame) (tick : ℕ) :
    accounted (kiteHold s k pn tick) = accounted s + {pn.bufId} := by
  have houts : (kiteFillNode t pn node tick).outs = s.outs :=
    (hrep.nodeAlloc halloc).outs.trans hrep.outs.symm
  have hwords : ∀ (u : BaState) (c : BaCtl), accounted (u.setCtl k c) = accounted u :=
    fun u c => accounted_congr rfl rfl rfl fun _ => rfl
  unfold kiteHold
  rw [halloc]
  dsimp only
  rw [hwords]
  split
  · next sub _ =>
    obtain ⟨hleft, -, hpri, hsec⟩ := kiteChain_rest (kiteFillNode t pn node tick) sub node
    rw [accounted_congr hleft hpri hsec fun x => kiteChain_frame _ sub node x]
    unfold accounted
    rw [hrep.nodeIds_fill halloc pn tick, houts, add_assoc]
  · exact hrep.accounted_insert halloc k pn tick

/-! ## Whole runs -/

/-- What a step brings in: a frame the caller is not given back. -/
def cameIds (s : BaState) : BaAction → Multiset ℕ
  | .frame flags pn band =>
    if (kiteClassifyPn s flags pn band).2 = .taken then {pn.bufId} else 0
  | _ => 0

/-- A frame that is to be held finds a node. -/
def Noded (s : BaState) : BaAction → Prop
  | .frame flags pn band =>
    let r := kiteArrival s (frameKey flags pn band) pn band
    r.2 = .inside → (reorderNodeAlloc r.1).isSome
  | _ => True

/-- While the nodes in use are no more than the rx buffers, it does. -/
theorem Rep.noded (hrep : Rep s h lost) (hbufs : (heldNodes h + lost).card ≤ 5600)
    (a : BaAction) : Noded s a := by
  cases a with
  | frame flags pn band =>
    intro _
    have hsheds := sheds_arrival s (frameKey flags pn band) pn band
    obtain ⟨h', hrep', hreleased⟩ := hsheds.rep hrep
    -- what the frame pushes out only makes nodes free
    have hsub : heldNodes h' + lost ⊆ heldNodes h + lost := by
      intro x hx
      exact hrep.inUse_iff.mp (hreleased.inUse hrep hrep' (hrep'.inUse_iff.mpr hx))
    have hnodup : (heldNodes h' + lost).Nodup := by
      have hall := hrep'.nodup
      rw [add_assoc] at hall
      exact (Multiset.nodup_add.mp hall).2.1
    have hcard := Multiset.card_le_card ((Multiset.le_iff_subset hnodup).mpr hsub)
    obtain ⟨node, t, halloc⟩ := hrep'.nodeAlloc_isSome (hcard.trans hbufs)
    rw [halloc]
    rfl
  | _ => trivial

/-- A frame of an entry with a window is taken, whichever branch it ends up
    in. -/
theorem Rep.accounted_reorder (hrep : Rep s h lost) (flags : RxFlags)
    (hnoded : Noded s (.frame flags pn band)) :
    accounted (kiteReorder s (frameKey flags pn band) flags pn band) =
      accounted s + {pn.bufId} := by
  set k := frameKey flags pn band with hk
  have hwants : (kiteArrival s k pn band).2 = .inside →
      (reorderNodeAlloc (kiteArrival s k pn band).1).isSome := hnoded
  obtain ⟨hrep', -⟩ := hrep.arrive (k := k) pn band
  have hbefore := hrep.books hrep' (sheds_arrival s k pn band) (books_arrive k pn band (h.view k))
  rw [add_zero] at hbefore
  rw [kiteReorder_eq, ← hbefore]
  cases hst : (kiteArrival s k pn band).2 with
  | inOrder =>
    rw [kiteTake]
    exact hrep'.books hrep'.inOrder (sheds_inOrder _ k pn) (books_inOrder k pn _)
  | duplicate =>
    rw [kiteTake]
    refine hrep'.books (hrep'.duplicate flags.fast) ?_ (books_duplicate k flags.fast pn band _)
    exact .ctl _ (.emit _ .refl) (chain_seen ..)
  | behind =>
    rw [kiteTake]
    exact hrep'.books (hrep'.behind flags.fast) (sheds_behind _ k flags.fast pn band)
      (books_behind k flags.fast pn band _)
  | inside =>
    rw [kiteTake]
    obtain ⟨⟨node, t⟩, halloc⟩ := Option.isSome_iff_exists.mp (hwants hst)
    exact hrep'.accounted_hold halloc k pn flags.tick

theorem Rep.accounted_frame (hrep : Rep s h lost) (flags : RxFlags)
    (hnoded : Noded s (.frame flags pn band)) :
    accounted (kiteClassifyPn s flags pn band).1 =
      accounted s + cameIds s (.frame flags pn band) := by
  set k := baKey flags.dbdc band pn.wcid pn.tid with hk
  unfold cameIds
  dsimp only
  by_cases hwcid : pn.wcid = 0
  · have hrun : kiteClassifyPn s flags pn band = (s.emit (.free band pn.bufId), .taken) := by
      unfold kiteClassifyPn
      rw [if_pos hwcid]
    have hsame : nodeIds (s.emit (.free band pn.bufId)) = nodeIds s := rfl
    rw [hrun, if_pos rfl]
    unfold accounted
    rw [hsame]
    unfold BaState.emit
    dsimp only
    rw [outIds_append, outIds_free, outIds_nil]
    abel
  · by_cases hstate : (s.entry k).state = 0
    · have hrun : kiteClassifyPn s flags pn band = (baFlushEntry s k, .up) := by
        unfold kiteClassifyPn
        dsimp only
        rw [if_neg hwcid, ← hk, if_pos hstate]
      have hup : ¬Verdict.up = .taken := by decide
      rw [hrun, if_neg hup]
      exact hrep.books (hrep.flush k) (sheds_flush s k) (books_flush k _)
    · have hrun : kiteClassifyPn s flags pn band = (kiteReorder s k flags pn band, .taken) := by
        unfold kiteClassifyPn
        dsimp only
        rw [if_neg hwcid, ← hk, if_neg hstate]
      rw [hrun, if_pos rfl]
      exact hrep.accounted_reorder flags hnoded

/-- A step's buffers join those that left or are in nodes. -/
theorem Rep.accounted_step {a : BaAction} (hrep : Rep s h lost) (hnoded : Noded s a)
    (hstep : baSystem.step s a t) : accounted t = accounted s + cameIds s a := by
  cases a with
  | frame flags pn band =>
    obtain ⟨-, -, rfl⟩ := hstep
    exact hrep.accounted_frame flags hnoded
  | timeout k now limit =>
    obtain rfl := hstep
    exact hrep.books (hrep.timeout k now limit nodeFuel) (sheds_timeout s k now limit)
      (books_timeout k now limit nodeFuel _)
  | bar k ssn =>
    obtain ⟨-, rfl⟩ := hstep
    exact hrep.books (hrep.barInfo ssn) (sheds_bar s k ssn) (books_barInfo k ssn _)
  | setBa k band winSize ssn =>
    obtain rfl := hstep
    exact hrep.books (hrep.setBaEntry band winSize ssn) (sheds_setBa s k band winSize ssn)
      (books_setBaEntry k band winSize ssn _)
  | reset k dir =>
    obtain rfl := hstep
    refine hrep.books (hrep.resetBaEntry dir) ?_ (books_resetBaEntry k dir _)
    exact .ctl _ (sheds_flush s k) (.inr rfl)
  | flush k =>
    obtain rfl := hstep
    exact hrep.books (hrep.flush k) (sheds_flush s k) (books_flush k _)

/-- The engine, and the buffers it took so far. -/
structure BaBooks where
  ba : BaState
  received : Multiset ℕ

/-- Frames come with buffers that no node carries. -/
def booksSystem (ids : Finset ℕ) : StepSystem BaBooks BaAction where
  init := fun b => baSystem.init b.ba ∧ b.ba.outs = [] ∧ b.received = 0
  step := fun b a b' => (baSystem.guarded (idGuard ids)).step b.ba a b'.ba ∧
    b'.received = b.received + cameIds b.ba a

/-- A buffer the engine took left it as often as it came, or once less:
    then one node in use carries it, and no other does. -/
structure Balanced (ids : Finset ℕ) (b : BaBooks) : Prop where
  received : b.received = outIds b.ba.outs + nodeIds b.ba
  apart : (nodeIds b.ba).Nodup
  known : ∀ bufId ∈ nodeIds b.ba, bufId ∈ ids

theorem inUse_of_mem (hx : x ∈ allNodes - freeNodes s) : InUse s x :=
  (Multiset.mem_sub_of_nodup nodup_allNodes).mp hx

theorem NodesInv.balanced {b : BaBooks} (hinv : NodesInv ids b.ba h lost)
    (hbooks : b.received = accounted b.ba) : Balanced ids b where
  received := hbooks
  apart := by
    have hnodup : (allNodes - freeNodes b.ba).Nodup :=
      Multiset.nodup_of_le (Multiset.sub_le_self _ _) nodup_allNodes
    exact hnodup.map_on fun x hx y hy heq =>
      hinv.carried.apart x y (inUse_of_mem hx) (inUse_of_mem hy) heq
  known bufId hmem := by
    obtain ⟨x, hx, rfl⟩ := Multiset.mem_map.mp hmem
    exact hinv.carried.known x (inUse_of_mem hx)

theorem books_of_reachable (hids : ids.card ≤ 5600) {b : BaBooks}
    (hreach : (booksSystem ids).Reachable b) :
    (baSystem.guarded (idGuard ids)).Reachable b.ba ∧ b.received = accounted b.ba := by
  induction hreach with
  | @init b hinit =>
    obtain ⟨⟨h, hrep, hnothing⟩, houts, hnone⟩ := hinit
    refine ⟨.init ⟨h, hrep, hnothing⟩, ?_⟩
    unfold accounted
    rw [hnone, houts, hrep.nodeIds_nothing fun k => (hnothing k).1]
    rfl
  | @step b b' a _ hstep ih =>
    obtain ⟨hreach, hbooks⟩ := ih
    obtain ⟨hstep, hreceived⟩ := hstep
    obtain ⟨h, lost, hinv⟩ := nodesInv_of_reachable hids hreach
    refine ⟨.step a hreach hstep, ?_⟩
    rw [hreceived, hbooks, hinv.rep.accounted_step (hinv.rep.noded (hinv.card_le.trans hids) a)
      hstep.2]

/-- In every run with at most 5600 buffer ids, the buffers the engine took
    are those it sent on or freed and those of the nodes in use. -/
theorem frames_accounted (hids : ids.card ≤ 5600) {b : BaBooks}
    (hreach : (booksSystem ids).Reachable b) : Balanced ids b := by
  obtain ⟨hba, hbooks⟩ := books_of_reachable hids hreach
  obtain ⟨h, lost, hnodes⟩ := nodesInv_of_reachable hids hba
  exact hnodes.balanced hbooks

/-- A buffer that never came is in no node. -/
theorem freshId_of_new (hids : ids.card ≤ 5600) {b : BaBooks}
    (hreach : (booksSystem ids).Reachable b) (hmem : pn.bufId ∈ ids)
    (hnew : pn.bufId ∉ b.received) : FreshId ids b.ba pn := by
  refine ⟨hmem, fun x hx heq => hnew ?_⟩
  rw [(books_of_reachable hids hreach).2, accounted, nodeIds, Multiset.mem_add]
  exact .inr (Multiset.mem_map.mpr ⟨x, (Multiset.mem_sub_of_nodup nodup_allNodes).mpr hx, heq⟩)

/-- A frame with a buffer that never came. -/
theorem books_arrives (hids : ids.card ≤ 5600) {b : BaBooks} {sn bufId : ℕ}
    {received : Multiset ℕ} (hreach : (booksSystem ids).Reachable b)
    (hmem : bufId ∈ ids) (hnew : bufId ∉ b.received) (hsn : sn < 4096)
    (htaken : (kiteClassifyPn b.ba noFlags (subframe sn 0 bufId) 0).2 = .taken)
    (hsum : received = b.received + {bufId}) :
    (booksSystem ids).Reachable ⟨b.ba.arrives sn 0 bufId, received⟩ := by
  refine .step (.frame noFlags (subframe sn 0 bufId) 0) hreach ⟨⟨?_, hsn, Nat.zero_le 3, rfl⟩, ?_⟩
  · exact freshId_of_new hids hreach hmem hnew
  · show received = b.received + if _ then _ else _
    rw [hsum, if_pos htaken]
    rfl

/-- 105 is held, 101 sent on, the second 105 freed and 110 held. -/
def fourFrames : BaState :=
  (((window100.arrives 105 0 7).arrives 101 0 8).arrives 105 0 9).arrives 110 0 10

/-- A BAR of 106 sends the first 105 on; the node of 110 stays in use. -/
theorem frames_accounted_four :
    (npuSetBarInfo fourFrames key1 106).outs = [bridgeOut key1 (subframe 101 0 8) 0 0,
        .free 0 9, bridgeOut key1 (subframe 105 0 7) 0 0] ∧
      Balanced {7, 8, 9, 10} ⟨npuSetBarInfo fourFrames key1 106, {7, 8, 9, 10}⟩ := by
  have hids : ({7, 8, 9, 10} : Finset ℕ).card ≤ 5600 := by decide
  have h0 : (booksSystem {7, 8, 9, 10}).Reachable ⟨window100, 0⟩ := .init ⟨window100_init, rfl, rfl⟩
  -- each frame comes with a buffer that has not been seen yet
  have h1 : (booksSystem {7, 8, 9, 10}).Reachable ⟨window100.arrives 105 0 7, {7}⟩ :=
    books_arrives hids h0 (by decide) (by decide) (by decide) (by decide +kernel) (by decide)
  have h2 : (booksSystem {7, 8, 9, 10}).Reachable
      ⟨(window100.arrives 105 0 7).arrives 101 0 8, {7, 8}⟩ :=
    books_arrives hids h1 (by decide) (by decide) (by decide) (by decide +kernel) (by decide)
  have h3 : (booksSystem {7, 8, 9, 10}).Reachable
      ⟨((window100.arrives 105 0 7).arrives 101 0 8).arrives 105 0 9, {7, 8, 9}⟩ :=
    books_arrives hids h2 (by decide) (by decide) (by decide) (by decide +kernel) (by decide)
  have h4 : (booksSystem {7, 8, 9, 10}).Reachable ⟨fourFrames, {7, 8, 9, 10}⟩ :=
    books_arrives hids h3 (by decide) (by decide) (by decide) (by decide +kernel) (by decide)
  refine ⟨by decide +kernel, frames_accounted hids (.step (.bar key1 106) h4 ⟨?_, ?_⟩)⟩
  · exact ⟨trivial, by decide, rfl⟩
  · rfl

end ClankerNPU.Kite
