import ClankerNPU.Kite.Held
import ClankerNPU.Lib.Custody
import ClankerNPU.Lib.LinkedList
import Mathlib.Data.Fintype.Prod
import Mathlib.Data.Multiset.Range

/-! # The heap of nodes refines the held rows

    `Rep s h hand` says that the nodes, pools and entries of `s` are the
    views of `h`, and that the nodes of `hand` are in nobody's list and
    in no pool: the operation under way holds them. Each operation on the
    heap then does what the operation of the same name does to a view. -/

open scoped BigOperators
open LinkedList Custody

namespace ClankerNPU.Kite

/-! ## The relation -/

/-- Every node there is. -/
def allNodes : Multiset NodeRef :=
  (Multiset.range reorderPriPoolSize).map (NodeRef.mk .pri) +
    (Multiset.range reorderSecPoolSize).map (NodeRef.mk .sec)

/-- The nodes in the two pools. -/
def freeNodes (s : BaState) : Multiset NodeRef :=
  (s.pri.contents reorderPriPoolSize : Multiset ℕ).map (NodeRef.mk .pri) +
    (s.sec.contents reorderSecPoolSize : Multiset ℕ).map (NodeRef.mk .sec)

/-- The nodes of an entry. -/
def View.refs (v : View) : List NodeRef := v.rows.flatMap Row.refs

/-- The nodes of all entries. -/
@[irreducible] def heldNodes (h : HeldState) : Multiset NodeRef :=
  ∑ k, ((h.view k).refs : Multiset NodeRef)

/-- A node holds what its cell says. -/
structure Filled (node : NodeRef → KiteNode) (c : Cell) : Prop where
  frame : (node c.ref).toKiteFrame = c.frame
  idx : (node c.ref).idx = c.ref.idx
  pool : (node c.ref).pool = c.ref.pool
  tick : (node c.ref).tick = c.tick

/-- The nodes of a row hold the row. -/
structure RowRep (node : NodeRef → KiteNode) (r : Row) : Prop where
  filled : ∀ c ∈ r.cells, Filled node c
  linked : Linked (fun x => (node x).next) (node r.mpdu.ref).msduHead (r.msdus.map (·.ref))
  tail : (node r.mpdu.ref).msduTail = (r.msdus.map (·.ref)).getLast?

/-- The entry `e` and its nodes hold the view. -/
structure EntryRep (node : NodeRef → KiteNode) (e : BaEntry) (v : View) : Prop where
  ctl : e.toBaCtl = v.toBaCtl
  list : Linked (fun x => (node x).next) e.head (v.rows.map (·.mpdu.ref))
  count : e.count = v.rows.length
  rows : ∀ r ∈ v.rows, RowRep node r

/-- The heap `s` is the abstract state `h`; `hand` is out of every list
    and pool. -/
structure Rep (s : BaState) (h : HeldState) (hand : Multiset NodeRef) : Prop where
  outs : s.outs = h.outs
  entry : ∀ k, EntryRep s.node (s.entry k) (h.view k)
  nodes : freeNodes s + heldNodes h + hand = allNodes
  pri : s.pri.Ok reorderPriPoolSize
  sec : s.sec.Ok reorderSecPoolSize

theorem nodup_allNodes : allNodes.Nodup := by
  unfold allNodes
  rw [Multiset.nodup_add]
  refine ⟨?_, ?_, ?_⟩
  · exact (Multiset.nodup_range _).map fun i j h => (NodeRef.mk.inj h).2
  · exact (Multiset.nodup_range _).map fun i j h => (NodeRef.mk.inj h).2
  · rw [Multiset.disjoint_left]
    intro r hp hs
    obtain ⟨i, -, rfl⟩ := Multiset.mem_map.mp hp
    obtain ⟨j, -, hj⟩ := Multiset.mem_map.mp hs
    cases (NodeRef.mk.inj hj).1

theorem mem_heldNodes {h : HeldState} {x : NodeRef} :
    x ∈ heldNodes h ↔ ∃ k, x ∈ (h.view k).refs := by
  unfold heldNodes
  simp [Multiset.mem_sum]

/-- Changing one entry's rows changes the held nodes by them. -/
theorem heldNodes_set (h : HeldState) (k : BaKey) (m : Move) :
    heldNodes (h.set k m) + ((h.view k).refs : Multiset NodeRef) =
      heldNodes h + (m.view.refs : Multiset NodeRef) := by
  unfold heldNodes HeldState.set
  exact sum_update (fun v : View => (v.refs : Multiset NodeRef)) h.view k m.view

theorem Row.mem_refs_mpdu (r : Row) : r.mpdu.ref ∈ r.refs := List.mem_cons_self

theorem View.mem_refs {v : View} {r : Row} {x : NodeRef} (hr : r ∈ v.rows) (hx : x ∈ r.refs) :
    x ∈ v.refs := List.mem_flatMap.mpr ⟨r, hr, hx⟩

theorem Row.refs_eq (r : Row) : r.refs = r.mpdu.ref :: r.msdus.map (·.ref) := rfl

/-- Only the row's own nodes matter. -/
theorem RowRep.congr {node node' : NodeRef → KiteNode} {r : Row} (h : RowRep node r)
    (heq : ∀ x ∈ r.refs, node' x = node x) : RowRep node' r := by
  have hmpdu := heq _ r.mem_refs_mpdu
  refine ⟨?_, ?_, ?_⟩
  · intro c hc
    have hsame := heq c.ref (List.mem_map_of_mem hc)
    obtain ⟨hf, hi, hp, ht⟩ := h.filled c hc
    constructor <;> rw [hsame] <;> assumption
  · rw [hmpdu]
    refine h.linked.congr fun x hx => ?_
    rw [heq x (List.mem_cons_of_mem _ hx)]
  · rw [hmpdu]
    exact h.tail

/-- Only the entry's own nodes matter. -/
theorem EntryRep.congr {node node' : NodeRef → KiteNode} {e : BaEntry} {v : View}
    (h : EntryRep node e v) (heq : ∀ x ∈ v.refs, node' x = node x) : EntryRep node' e v := by
  refine ⟨h.ctl, ?_, h.count, ?_⟩
  · refine h.list.congr fun x hx => ?_
    obtain ⟨r, hr, rfl⟩ := List.mem_map.mp hx
    rw [heq _ (View.mem_refs hr r.mem_refs_mpdu)]
  · intro r hr
    exact (h.rows r hr).congr fun x hx => heq x (View.mem_refs hr hx)

/-- The heap says what a cell is. -/
theorem Filled.eq {node : NodeRef → KiteNode} {c : Cell} (h : Filled node c) :
    c = ⟨c.ref, (node c.ref).toKiteFrame, (node c.ref).tick⟩ := by
  rw [h.frame, h.tick]

theorem cells_unique {node : NodeRef → KiteNode} {l l' : List Cell} (h : ∀ c ∈ l, Filled node c)
    (h' : ∀ c ∈ l', Filled node c) (hrefs : l.map (·.ref) = l'.map (·.ref)) : l = l' := by
  have hall : ∀ l : List Cell, (∀ c ∈ l, Filled node c) →
      l = (l.map (·.ref)).map fun x => ⟨x, (node x).toKiteFrame, (node x).tick⟩ := by
    intro l hl
    rw [List.map_map]
    exact (List.map_id l).symm.trans (List.map_congr_left fun c hc => (hl c hc).eq)
  rw [hall l h, hall l' h', hrefs]

theorem RowRep.unique {node : NodeRef → KiteNode} {r r' : Row} (h : RowRep node r)
    (h' : RowRep node r') (href : r.mpdu.ref = r'.mpdu.ref) : r = r' := by
  have hmpdu : r.mpdu = r'.mpdu := by
    rw [(h.filled _ List.mem_cons_self).eq, (h'.filled _ List.mem_cons_self).eq, href]
  have hmsdus : r.msdus = r'.msdus := by
    have hlinked := h.linked
    rw [href] at hlinked
    exact cells_unique (fun c hc => h.filled c (List.mem_cons_of_mem _ hc))
      (fun c hc => h'.filled c (List.mem_cons_of_mem _ hc)) (hlinked.unique h'.linked)
  cases r
  cases r'
  simp only at hmpdu hmsdus
  rw [hmpdu, hmsdus]

theorem rows_unique {node : NodeRef → KiteNode} {l l' : List Row} (h : ∀ r ∈ l, RowRep node r)
    (h' : ∀ r ∈ l', RowRep node r) (hrefs : l.map (·.mpdu.ref) = l'.map (·.mpdu.ref)) :
    l = l' := by
  induction l generalizing l' with
  | nil => exact (List.map_eq_nil_iff.mp hrefs.symm).symm
  | cons r l ih =>
    cases l' with
    | nil => cases hrefs
    | cons r' l' =>
      obtain ⟨href, hrest⟩ := List.cons.inj hrefs
      rw [(h r List.mem_cons_self).unique (h' r' List.mem_cons_self) href,
        ih (fun r hr => h r (List.mem_cons_of_mem _ hr))
          (fun r hr => h' r (List.mem_cons_of_mem _ hr)) hrest]

theorem EntryRep.unique {node : NodeRef → KiteNode} {e : BaEntry} {v v' : View}
    (h : EntryRep node e v) (h' : EntryRep node e v') : v = v' := by
  have hctl : v.toBaCtl = v'.toBaCtl := h.ctl.symm.trans h'.ctl
  have hrows : v.rows = v'.rows := rows_unique h.rows h'.rows (h.list.unique h'.list)
  cases v
  cases v'
  simp only at hctl hrows
  rw [hctl, hrows]

section rep

variable {s s' : BaState} {h : HeldState} {hand hand' : Multiset NodeRef} {k k' : BaKey}
  {x : NodeRef}

/-! ## Where a node is -/

theorem Rep.nodup (hrep : Rep s h hand) : (freeNodes s + heldNodes h + hand).Nodup :=
  hrep.nodes ▸ nodup_allNodes

/-- The heap is one abstract state's only. -/
theorem Rep.unique {h' : HeldState} (hrep : Rep s h hand) (hrep' : Rep s h' hand') : h = h' := by
  have houts : h.outs = h'.outs := hrep.outs.symm.trans hrep'.outs
  have hview : h.view = h'.view := funext fun k => (hrep.entry k).unique (hrep'.entry k)
  cases h
  cases h'
  simp only at houts hview
  rw [houts, hview]

theorem refs_le_heldNodes (h : HeldState) (k : BaKey) :
    ((h.view k).refs : Multiset NodeRef) ≤ heldNodes h := by
  have hsum : ∑ k, ((h.view k).refs : Multiset NodeRef) = heldNodes h := by
    unfold heldNodes
    rfl
  exact le_of_sum hsum k

theorem Rep.not_held_of_hand (hrep : Rep s h hand) (hx : x ∈ hand) : x ∉ (h.view k).refs := by
  intro hmem
  have hdisj := (Multiset.nodup_add.mp hrep.nodup).2.2
  refine Multiset.disjoint_left.mp hdisj ?_ hx
  exact Multiset.mem_add.mpr (.inr (mem_heldNodes.mpr ⟨k, hmem⟩))

theorem Rep.nodup_heldNodes (hrep : Rep s h hand) : (heldNodes h).Nodup :=
  (Multiset.nodup_add.mp (Multiset.nodup_add.mp hrep.nodup).1).2.1

/-- Two entries have no node in common. -/
theorem Rep.not_held_of_ne (hrep : Rep s h hand) (hne : k' ≠ k) (hx : x ∈ (h.view k).refs) :
    x ∉ (h.view k').refs := by
  intro hmem
  have hcount : (∑ k, ((h.view k).refs : Multiset NodeRef)).count x = 1 := by
    have := Multiset.count_eq_one_of_mem hrep.nodup_heldNodes (mem_heldNodes.mpr ⟨k, hx⟩)
    unfold heldNodes at this
    exact this
  obtain ⟨p, -, hother⟩ := heldOnce_of_count hcount
  by_cases hp : k = p
  · exact hother k' (by rw [← hp]; exact hne) (Multiset.mem_coe.mpr hmem)
  · exact hother k hp (Multiset.mem_coe.mpr hx)

/-- An entry has no node twice. -/
theorem Rep.nodup_refs (hrep : Rep s h hand) (k : BaKey) : (h.view k).refs.Nodup :=
  Multiset.coe_nodup.mp (Multiset.nodup_of_le (refs_le_heldNodes h k) hrep.nodup_heldNodes)

/-- A row's nodes are its own, each once. -/
theorem Rep.row_nodup {r : Row} {p q : List Row} (hrep : Rep s h hand)
    (hrows : (h.view k).rows = p ++ r :: q) :
    r.refs.Nodup ∧ ∀ r' ∈ p ++ q, ∀ x ∈ r'.refs, x ∉ r.refs := by
  have hnd := hrep.nodup_refs k
  unfold View.refs at hnd
  have hperm : ((p ++ r :: q).flatMap Row.refs).Perm (r.refs ++ (p ++ q).flatMap Row.refs) :=
    List.perm_middle.flatMap_right _
  rw [hrows, hperm.nodup_iff, List.nodup_append] at hnd
  obtain ⟨hown, -, hother⟩ := hnd
  refine ⟨hown, fun r' hr' x hx hmem => ?_⟩
  exact hother x hmem x (List.mem_flatMap.mpr ⟨r', hr', hx⟩) rfl

theorem View.length_rows_le (v : View) : v.rows.length ≤ v.refs.length := by
  unfold View.refs
  induction v.rows with
  | nil => exact le_rfl
  | cons r rows ih =>
    rw [List.flatMap_cons, List.length_append, List.length_cons, Row.refs_eq, List.length_cons]
    omega

theorem card_allNodes : allNodes.card = reorderPriPoolSize + reorderSecPoolSize := by
  unfold allNodes
  simp only [Multiset.card_add, Multiset.card_map, Multiset.card_range]

/-- The held nodes and those in hand are not more than there are. -/
theorem Rep.card_le (hrep : Rep s h hand) (k : BaKey) :
    (h.view k).refs.length + hand.card ≤ reorderPriPoolSize + reorderSecPoolSize := by
  have hall : ((h.view k).refs : Multiset NodeRef) + hand ≤ allNodes := by
    rw [← hrep.nodes, add_assoc]
    refine le_trans ?_ (Multiset.le_add_left ..)
    exact add_le_add_left (refs_le_heldNodes h k) hand
  have hcard := Multiset.card_le_card hall
  rw [card_allNodes, Multiset.card_add, Multiset.coe_card] at hcard
  exact hcard

/-- A loop over an entry's rows has fuel for each of them. -/
theorem Rep.length_rows_lt (hrep : Rep s h hand) (k : BaKey) :
    (h.view k).rows.length + 1 < nodeFuel := by
  have hrows := (h.view k).length_rows_le
  have hcard := hrep.card_le k
  unfold nodeFuel
  omega

/-! ## Heap writes -/

/-- An operation on entry `k` that leaves the other entries and their
    nodes alone and loses no node. -/
theorem Rep.set (hrep : Rep s h hand) (m : Move) (houts : s'.outs = s.outs ++ m.outs)
    (hentry : EntryRep s'.node (s'.entry k) m.view)
    (hother : ∀ k', k' ≠ k → s'.entry k' = s.entry k')
    (hframe : ∀ k', k' ≠ k → ∀ x ∈ (h.view k').refs, s'.node x = s.node x)
    (hnodes : freeNodes s' + (m.view.refs : Multiset NodeRef) + hand' =
      freeNodes s + ((h.view k).refs : Multiset NodeRef) + hand)
    (hpri : s'.pri.Ok reorderPriPoolSize) (hsec : s'.sec.Ok reorderSecPoolSize) :
    Rep s' (h.set k m) hand' := by
  refine ⟨?_, ?_, ?_, hpri, hsec⟩
  · rw [houts, hrep.outs]
    rfl
  · intro k'
    by_cases hk : k' = k
    · subst hk
      rw [HeldState.set_view_self]
      exact hentry
    · rw [HeldState.set_view_of_ne hk, hother k' hk]
      exact (hrep.entry k').congr (hframe k' hk)
  · have hset := heldNodes_set h k m
    refine add_right_cancel (b := ((h.view k).refs : Multiset NodeRef)) ?_
    calc freeNodes s' + heldNodes (h.set k m) + hand' + ((h.view k).refs : Multiset NodeRef)
        = freeNodes s' + (heldNodes (h.set k m) + ((h.view k).refs : Multiset NodeRef)) +
            hand' := by abel
      _ = freeNodes s' + (m.view.refs : Multiset NodeRef) + hand' + heldNodes h := by
          rw [hset]; abel
      _ = allNodes + ((h.view k).refs : Multiset NodeRef) := by
          rw [hnodes, ← hrep.nodes]; abel

/-- Recording what leaves. -/
theorem Rep.emit (hrep : Rep s h hand) (k : BaKey) (o : Out) :
    Rep (s.emit o) (h.set k ⟨h.view k, [o]⟩) hand :=
  hrep.set ⟨h.view k, [o]⟩ rfl (hrep.entry k) (fun _ _ => rfl) (fun _ _ _ _ => rfl) rfl
    hrep.pri hrep.sec

/-- Writing a node in hand. -/
theorem Rep.setNode (hrep : Rep s h hand) (hx : x ∈ hand) (n : KiteNode) :
    Rep (s.setNode x n) h hand := by
  have hout : ∀ k, ∀ y ∈ (h.view k).refs, (s.setNode x n).node y = s.node y := by
    intro k y hy
    refine Function.update_of_ne ?_ _ _
    rintro rfl
    exact hrep.not_held_of_hand hx hy
  exact ⟨hrep.outs, fun k => (hrep.entry k).congr (hout k), hrep.nodes, hrep.pri, hrep.sec⟩

theorem setEntry_self (s : BaState) (k : BaKey) (e : BaEntry) : (s.setEntry k e).entry k = e :=
  Function.update_self ..

theorem setEntry_of_ne (s : BaState) (e : BaEntry) (hne : k' ≠ k) :
    (s.setEntry k e).entry k' = s.entry k' := Function.update_of_ne hne ..

@[simp] theorem setCtl_self (s : BaState) (k : BaKey) (c : BaCtl) :
    ((s.setCtl k c).entry k).toBaCtl = c := by
  unfold BaState.setCtl
  rw [setEntry_self]

/-- Writing an entry's words. -/
theorem Rep.setCtl (hrep : Rep s h hand) (k : BaKey) (c : BaCtl) :
    Rep (s.setCtl k c) (h.set k ⟨(h.view k).setCtl c, []⟩) hand := by
  obtain ⟨-, hlist, hcount, hrows⟩ := hrep.entry k
  refine hrep.set ⟨(h.view k).setCtl c, []⟩ (List.append_nil _).symm ?_
    (fun k' hk => setEntry_of_ne _ _ hk) (fun _ _ _ _ => rfl) rfl hrep.pri hrep.sec
  unfold BaState.setCtl
  rw [setEntry_self]
  exact ⟨rfl, hlist, hcount, hrows⟩

/-! ## Taking and giving nodes -/

theorem countP_allNodes (p : Pool) :
    allNodes.countP (fun x => x.pool = p) =
      match p with
      | .pri => reorderPriPoolSize
      | .sec => reorderSecPoolSize := by
  unfold allNodes
  rw [Multiset.countP_add, Multiset.countP_map, Multiset.countP_map]
  cases p <;> simp

/-- A node that is not in its pool has room there, and goes back to it. -/
theorem free_of_le (hpri : s.pri.Ok reorderPriPoolSize) (hsec : s.sec.Ok reorderSecPoolSize)
    (hle : x ::ₘ freeNodes s ≤ allNodes) :
    (reorderNodeFree s x.idx x.pool).pri.Ok reorderPriPoolSize ∧
      (reorderNodeFree s x.idx x.pool).sec.Ok reorderSecPoolSize ∧
      freeNodes (reorderNodeFree s x.idx x.pool) = x ::ₘ freeNodes s := by
  have hcount := Multiset.countP_le_of_le (fun y : NodeRef => y.pool = x.pool) hle
  have hcons := Multiset.countP_cons_of_pos (p := fun y : NodeRef => y.pool = x.pool)
    (freeNodes s) rfl
  rw [countP_allNodes, hcons, freeNodes, Multiset.countP_add, Multiset.countP_map,
    Multiset.countP_map] at hcount
  obtain ⟨p, i⟩ := x
  unfold freeNodes reorderNodeFree
  cases p with
  | pri =>
    simp at hcount
    obtain ⟨hok, hcont⟩ := hpri.give (by omega) i
    refine ⟨hok, hsec, ?_⟩
    simp only [hcont, ← Multiset.coe_add, Multiset.map_add, Multiset.coe_singleton,
      Multiset.map_singleton, ← Multiset.singleton_add]
    abel
  | sec =>
    simp at hcount
    obtain ⟨hok, hcont⟩ := hsec.give (by omega) i
    refine ⟨hpri, hok, ?_⟩
    simp only [hcont, ← Multiset.coe_add, Multiset.map_add, Multiset.coe_singleton,
      Multiset.map_singleton, ← Multiset.singleton_add]
    abel

/-- A node in hand goes back to its pool. -/
theorem Rep.nodeFree (hrep : Rep s h (x ::ₘ hand)) :
    Rep (reorderNodeFree s x.idx x.pool) h hand := by
  have hle : x ::ₘ freeNodes s ≤ allNodes := by
    rw [← hrep.nodes, Multiset.add_cons, Multiset.cons_le_cons_iff, add_assoc]
    exact Multiset.le_add_right _ _
  obtain ⟨hpri, hsec, hfree⟩ := free_of_le hrep.pri hrep.sec hle
  have hrest : (reorderNodeFree s x.idx x.pool).outs = s.outs ∧
      (reorderNodeFree s x.idx x.pool).entry = s.entry ∧
      (reorderNodeFree s x.idx x.pool).node = s.node := by
    unfold reorderNodeFree
    split <;> exact ⟨rfl, rfl, rfl⟩
  obtain ⟨houts, hentry, hnode⟩ := hrest
  refine ⟨houts.trans hrep.outs, ?_, ?_, hpri, hsec⟩
  · rw [hentry, hnode]
    exact hrep.entry
  · rw [hfree, Multiset.cons_add, Multiset.cons_add, ← Multiset.add_cons]
    exact hrep.nodes

/-- A node from a pool is in hand. -/
theorem Rep.nodeAlloc (hrep : Rep s h hand) (halloc : reorderNodeAlloc s = some (x, s')) :
    Rep s' h (x ::ₘ hand) := by
  unfold reorderNodeAlloc at halloc
  split at halloc
  · next i pri htake =>
    obtain ⟨rfl, rfl⟩ := Prod.mk.inj (Option.some.inj halloc)
    obtain ⟨hok, hcont⟩ := hrep.pri.take htake
    refine ⟨hrep.outs, hrep.entry, ?_, hok, hrep.sec⟩
    rw [← hrep.nodes]
    unfold freeNodes
    simp only [hcont, ← Multiset.cons_coe, ← Multiset.singleton_add, Multiset.map_add,
      Multiset.map_singleton]
    abel
  · split at halloc
    · next i sec htake =>
      obtain ⟨rfl, rfl⟩ := Prod.mk.inj (Option.some.inj halloc)
      obtain ⟨hok, hcont⟩ := hrep.sec.take htake
      refine ⟨hrep.outs, hrep.entry, ?_, hrep.pri, hok⟩
      rw [← hrep.nodes]
      unfold freeNodes
      simp only [hcont, ← Multiset.cons_coe, ← Multiset.singleton_add, Multiset.map_add,
        Multiset.map_singleton]
      abel
    · cases halloc

/-! ## Releasing the first row -/

/-- `ba_pop_mpdu` takes the first row off the list, its nodes in hand. -/
theorem Rep.pop {r : Row} {rows : List Row} (hrep : Rep s h hand)
    (hrows : (h.view k).rows = r :: rows) :
    (s.entry k).head = some r.mpdu.ref ∧
      Rep (baPopMpdu s k r.mpdu.ref) (h.set k ⟨{ h.view k with rows := rows }, []⟩)
        ((r.refs : Multiset NodeRef) + hand) := by
  obtain ⟨hctl, hlist, hcount, hrep'⟩ := hrep.entry k
  rw [hrows, List.map_cons] at hlist
  refine ⟨hlist.1, ?_⟩
  refine hrep.set _ (List.append_nil _).symm ?_ (fun k' hk => setEntry_of_ne _ _ hk)
    (fun _ _ _ _ => rfl) ?_ hrep.pri hrep.sec
  · unfold baPopMpdu
    rw [setEntry_self]
    refine ⟨hctl, hlist.2, ?_, ?_⟩
    · have hlen := hrep.length_rows_lt k
      unfold nodeFuel reorderPriPoolSize reorderSecPoolSize at hlen
      rw [hrows, List.length_cons] at hcount hlen
      show u16 ((s.entry k).count - 1) = rows.length
      rw [hcount]
      unfold u16
      omega
    · intro r' hr'
      exact hrep' r' (by rw [hrows]; exact List.mem_cons_of_mem _ hr')
  · show freeNodes s + _ + _ = _
    unfold View.refs
    simp only [hrows, List.flatMap_cons, ← Multiset.coe_add]
    abel

/-- `ba_release_mpdu` sends the MSDUs of a row in hand on and frees their
    nodes. -/
theorem Rep.releaseMsdus {mpdu : NodeRef} {bss n : ℕ} {subs : List Cell}
    (k : BaKey) (band : ℕ)
    (hrep : Rep s h (mpdu ::ₘ ((subs.map (·.ref) : Multiset NodeRef) + hand)))
    (hfilled : ∀ c ∈ subs, Filled s.node c)
    (hlinked : Linked (fun x => (s.node x).next) (s.node mpdu).msduHead (subs.map (·.ref)))
    (hbss : (s.node mpdu).bss = bss) (hfuel : subs.length < n) :
    let t := baReleaseMsdus k mpdu band n s
    Rep t (h.set k ⟨h.view k, subs.map fun c => bridgeOut k c.frame band bss⟩)
      (mpdu ::ₘ hand) ∧
    (t.node mpdu).idx = (s.node mpdu).idx ∧ (t.node mpdu).pool = (s.node mpdu).pool := by
  induction subs generalizing s h n with
  | nil =>
    obtain ⟨fuel, rfl⟩ : ∃ m, n = m + 1 := ⟨n - 1, by simp at hfuel; omega⟩
    unfold baReleaseMsdus
    rw [show (s.node mpdu).msduHead = none from hlinked]
    simp only [List.map_nil, HeldState.set_same, and_true]
    simpa using hrep
  | cons c subs ih =>
    obtain ⟨fuel, rfl⟩ : ∃ m, n = m + 1 := ⟨n - 1, by simp at hfuel; omega⟩
    rw [List.map_cons] at hlinked hrep
    have hhead := hlinked.1
    obtain ⟨hframe, hidx, hpool, -⟩ := hfilled c List.mem_cons_self
    -- the MPDU's node is not one of its MSDUs' nodes
    have hnd : (mpdu ::ₘ ((c.ref ::ₘ (subs.map (·.ref) : Multiset NodeRef)) + hand)).Nodup :=
      (Multiset.nodup_add.mp hrep.nodup).2.1
    have hne : ∀ x ∈ c.ref :: subs.map (·.ref), x ≠ mpdu := by
      rintro x hx rfl
      refine (Multiset.nodup_cons.mp hnd).1 (Multiset.mem_add.mpr (.inl ?_))
      rw [Multiset.cons_coe]
      exact Multiset.mem_coe.mpr hx
    unfold baReleaseMsdus
    rw [hhead]
    simp only
    rw [show (s.node c.ref).toKiteFrame = c.frame from hframe, hidx, hpool]
    set m' : KiteNode := { s.node mpdu with
      msduCnt := u16 ((s.node mpdu).msduCnt - 1)
      msduHead := (s.node c.ref).next
      msduTail := if (s.node c.ref).next = none then none else (s.node mpdu).msduTail } with hm'
    set t := reorderNodeFree ((s.setNode mpdu m').emit (bridgeOut k c.frame band
      (s.node mpdu).bss)) c.ref.idx c.ref.pool with ht
    have htnode : ∀ x, t.node x = if x = mpdu then m' else s.node x := by
      intro x
      rw [ht]
      unfold reorderNodeFree BaState.emit BaState.setNode
      split <;> simp only [Function.update_apply]
    have htrep : Rep t (h.set k ⟨h.view k, [bridgeOut k c.frame band bss]⟩)
        (mpdu ::ₘ ((subs.map (·.ref) : Multiset NodeRef) + hand)) := by
      have hwrite := (hrep.setNode (Multiset.mem_cons_self ..) m').emit k
        (bridgeOut k c.frame band (s.node mpdu).bss)
      rw [hbss] at hwrite ht
      rw [ht]
      refine Rep.nodeFree (x := c.ref) ?_
      rw [Multiset.cons_swap, ← Multiset.cons_add]
      exact hwrite
    have hself : t.node mpdu = m' := by rw [htnode, if_pos rfl]
    have hothers : ∀ x ∈ subs.map (·.ref), t.node x = s.node x := by
      intro x hx
      rw [htnode, if_neg (hne x (List.mem_cons_of_mem _ hx))]
    obtain ⟨hend, hidx', hpool'⟩ := ih (n := fuel) htrep
      (by
        intro c' hc'
        obtain ⟨h1, h2, h3, h4⟩ := hfilled c' (List.mem_cons_of_mem _ hc')
        have hsame := hothers c'.ref (List.mem_map_of_mem hc')
        constructor <;> rw [hsame] <;> assumption)
      (by
        rw [hself, hm']
        refine hlinked.2.congr fun x hx => ?_
        rw [hothers x hx])
      (by rw [hself, hm']; exact hbss)
      (by simpa using hfuel)
    rw [hself] at hidx' hpool'
    refine ⟨?_, hidx', hpool'⟩
    rw [HeldState.set_view_self, HeldState.set_set] at hend
    exact hend

/-- `ba_release_mpdu` of a row in hand. -/
theorem Rep.releaseMpdu {r : Row} (k : BaKey) (band : ℕ)
    (hrep : Rep s h ((r.refs : Multiset NodeRef) + hand)) (hrow : RowRep s.node r) :
    Rep (baReleaseMpdu s k r.mpdu.ref band) (h.set k ⟨h.view k, r.outs k band⟩) hand := by
  obtain ⟨hfilled, hlinked, -⟩ := hrow
  obtain ⟨hframe, hidx, hpool, -⟩ := hfilled r.mpdu List.mem_cons_self
  have hlen : r.msdus.length < nodeFuel := by
    have hcard := hrep.card_le k
    rw [Multiset.card_add, Multiset.coe_card, Row.refs_eq, List.length_cons, List.length_map]
      at hcard
    unfold nodeFuel
    omega
  have hemit := hrep.emit k (bridgeOut k r.mpdu.frame band r.mpdu.frame.bss)
  rw [Row.refs_eq, ← Multiset.cons_coe, Multiset.cons_add] at hemit
  have hbss : (s.node r.mpdu.ref).bss = r.mpdu.frame.bss := by rw [← hframe]
  obtain ⟨hend, hidx', hpool'⟩ := hemit.releaseMsdus k band
    (fun c hc => hfilled c (List.mem_cons_of_mem _ hc)) hlinked hbss hlen
  unfold baReleaseMpdu
  simp only
  rw [show (s.node r.mpdu.ref).toKiteFrame = r.mpdu.frame from hframe]
  rw [hidx', hpool', show ((s.emit _).node r.mpdu.ref).idx = r.mpdu.ref.idx from hidx,
    show ((s.emit _).node r.mpdu.ref).pool = r.mpdu.ref.pool from hpool]
  have hfree := hend.nodeFree
  rw [HeldState.set_view_self, HeldState.set_set] at hfree
  exact hfree

/-- The first row off the list and on its way. -/
theorem Rep.releaseHead {r : Row} {rows : List Row} (band : ℕ) (hrep : Rep s h hand)
    (hrows : (h.view k).rows = r :: rows) :
    Rep (baReleaseMpdu (baPopMpdu s k r.mpdu.ref) k r.mpdu.ref band)
      (h.set k ⟨{ h.view k with rows := rows }, r.outs k band⟩) hand := by
  have hrow : RowRep s.node r := (hrep.entry k).rows r (by rw [hrows]; exact List.mem_cons_self)
  have hend := (hrep.pop hrows).2.releaseMpdu k band hrow
  rw [HeldState.set_view_self, HeldState.set_set] at hend
  exact hend

theorem Rep.head_eq (hrep : Rep s h hand) (k : BaKey) :
    (s.entry k).head = (h.view k).rows.head?.map (·.mpdu.ref) := by
  rw [(hrep.entry k).list.head_eq, List.head?_map]

theorem Rep.head_sn {r : Row} {rows : List Row} (hrep : Rep s h hand)
    (hrows : (h.view k).rows = r :: rows) :
    (s.entry k).head = some r.mpdu.ref ∧ (s.node r.mpdu.ref).sn = r.sn ∧
      (s.node r.mpdu.ref).tick = r.mpdu.tick := by
  have hrow : RowRep s.node r := (hrep.entry k).rows r (by rw [hrows]; exact List.mem_cons_self)
  obtain ⟨hframe, -, -, htick⟩ := hrow.filled r.mpdu List.mem_cons_self
  refine ⟨?_, ?_, htick⟩
  · rw [hrep.head_eq, hrows]
    rfl
  · rw [show (s.node r.mpdu.ref).sn = (s.node r.mpdu.ref).toKiteFrame.sn from rfl, hframe]
    rfl

/-! ## The loops -/

theorem Rep.indicateLoop {band seq fuel : ℕ} (hrep : Rep s h hand)
    (hfuel : (h.view k).rows.length < fuel) (hband : (h.view k).band = band) :
    Rep (baIndicateLoop k band seq fuel s) (h.app k (View.indicate k seq)) hand := by
  -- a pass releases the first row or stops at one past `seq`
  induction fuel generalizing s h with
  | zero => omega
  | succ fuel ih =>
    unfold baIndicateLoop HeldState.app View.indicate View.rowOuts
    cases hrows : (h.view k).rows with
    | nil =>
      rw [hrep.head_eq, hrows]
      simp only [List.head?_nil, Option.map_none, List.dropWhile_nil, List.takeWhile_nil,
        List.flatMap_nil]
      rw [← hrows, HeldState.set_same]
      exact hrep
    | cons r rows =>
      obtain ⟨hhead, hsn, -⟩ := hrep.head_sn hrows
      rw [hhead]
      simp only [hsn]
      by_cases hpast : pastSeq r.sn seq
      · simp only [hpast, if_true, not_true_eq_false, decide_false, Bool.false_eq_true,
          not_false_eq_true, List.dropWhile_cons_of_neg, List.takeWhile_cons_of_neg,
          List.flatMap_nil]
        rw [← hrows, HeldState.set_same]
        exact hrep
      · simp only [hpast, if_false, not_false_eq_true, decide_true, List.dropWhile_cons_of_pos,
          List.takeWhile_cons_of_pos, List.flatMap_cons]
        have hrel := hrep.releaseHead band hrows
        have hnext := ih hrel (by
          rw [HeldState.set_view_self]
          rw [hrows, List.length_cons] at hfuel
          exact Nat.lt_of_succ_lt_succ hfuel) (by rw [HeldState.set_view_self]; exact hband)
        unfold HeldState.app View.indicate View.rowOuts at hnext
        rw [HeldState.set_view_self, HeldState.set_set] at hnext
        rw [hband]
        simp only [hband] at hnext
        exact hnext

/-- `ba_indicate_le_seq` -/
theorem Rep.indicate (hrep : Rep s h hand) (k : BaKey) (seq : ℕ) :
    Rep (baIndicateLeSeq s k seq) (h.app k (View.indicate k seq)) hand := by
  have hband : (h.view k).band = (s.entry k).band :=
    (congrArg BaCtl.band (hrep.entry k).ctl).symm
  exact hrep.indicateLoop (by have := hrep.length_rows_lt k; omega) hband

theorem runEnd_of_runOf_nil {seq : ℕ} {rows : List Row} (hnil : runOf seq rows = []) :
    runEnd seq rows = seq := by
  cases rows with
  | nil => rfl
  | cons r rows =>
    unfold runOf at hnil
    unfold runEnd
    split at hnil
    · cases hnil
    · next hne => rw [if_neg hne]

theorem runEnd_lt {seq : ℕ} {rows : List Row} (hne : runOf seq rows ≠ []) :
    runEnd seq rows < 4096 := by
  induction rows generalizing seq with
  | nil => exact absurd rfl hne
  | cons r rows ih =>
    unfold runOf at hne
    unfold runEnd
    by_cases hsn : r.sn = (seq + 1) % 4096
    · rw [if_pos hsn]
      by_cases hnil : runOf r.sn rows = []
      · rw [runEnd_of_runOf_nil hnil, hsn]
        exact Nat.mod_lt _ (by omega)
      · exact ih hnil
    · rw [if_neg hsn] at hne
      exact absurd rfl hne

theorem Rep.scanLoop {band fuel : ℕ} (seq last : ℕ) (hrep : Rep s h hand)
    (hfuel : (h.view k).rows.length < fuel) (hband : (h.view k).band = band) :
    let t := baScanLoop k band fuel s seq last
    Rep t.1 (h.set k ⟨{ h.view k with rows := runRest seq (h.view k).rows },
      (h.view k).rowOuts k (runOf seq (h.view k).rows)⟩) hand ∧
    t.2 = if runOf seq (h.view k).rows = [] then last else runEnd seq (h.view k).rows := by
  -- a pass releases the row that is next in line, or stops
  induction fuel generalizing s h seq last with
  | zero => omega
  | succ fuel ih =>
    unfold baScanLoop View.rowOuts
    cases hrows : (h.view k).rows with
    | nil =>
      rw [hrep.head_eq, hrows]
      simp only [List.head?_nil, Option.map_none, runRest, runOf, List.flatMap_nil, if_true,
        and_true]
      rw [← hrows, HeldState.set_same]
      exact hrep
    | cons r rows =>
      obtain ⟨hhead, hsn, -⟩ := hrep.head_sn hrows
      rw [hhead]
      simp only [hsn, runRest, runOf, runEnd]
      by_cases hnext : r.sn = (seq + 1) % 4096
      · simp only [if_pos hnext]
        have hrel := hrep.releaseHead band hrows
        obtain ⟨hrun, hlast⟩ := ih r.sn r.sn hrel (by
          rw [HeldState.set_view_self]
          rw [hrows, List.length_cons] at hfuel
          exact Nat.lt_of_succ_lt_succ hfuel) (by rw [HeldState.set_view_self]; exact hband)
        rw [HeldState.set_view_self] at hrun hlast
        refine ⟨?_, ?_⟩
        · unfold View.rowOuts at hrun
          rw [HeldState.set_set] at hrun
          rw [List.flatMap_cons, hband]
          simp only [hband] at hrun
          exact hrun
        · rw [hlast, if_neg (List.cons_ne_nil _ _)]
          split
          · next hnil => rw [runEnd_of_runOf_nil hnil]
          · rfl
      · simp only [if_neg hnext, if_true, List.flatMap_nil, and_true]
        rw [← hrows, HeldState.set_same]
        exact hrep

/-- `ba_seq_scan` -/
theorem Rep.scan (hrep : Rep s h hand) (k : BaKey) (seq : ℕ) :
    Rep (baSeqScan s k seq).1 (h.set k ⟨{ h.view k with rows := runRest seq (h.view k).rows },
      (h.view k).rowOuts k (runOf seq (h.view k).rows)⟩) hand ∧
    (baSeqScan s k seq).2 =
      if runOf seq (h.view k).rows = [] then noSeq else runEnd seq (h.view k).rows := by
  have hband : (h.view k).band = (s.entry k).band :=
    (congrArg BaCtl.band (hrep.entry k).ctl).symm
  exact hrep.scanLoop _ _ (by have := hrep.length_rows_lt k; omega) hband

theorem Rep.setLast (hrep : Rep s h hand) (k : BaKey) (seq : ℕ) :
    Rep (s.setCtl k { (s.entry k).toBaCtl with last := seq })
      (h.set k ⟨{ h.view k with last := seq }, []⟩) hand := by
  rw [(hrep.entry k).ctl]
  exact hrep.setCtl k { (h.view k).toBaCtl with last := seq }

/-- The window moves to `seq` and on. -/
theorem Rep.moveLast (hrep : Rep s h hand) (k : BaKey) (seq : ℕ) :
    Rep (baMoveLast s k seq) (h.app k (View.moveLast k seq)) hand := by
  obtain ⟨hrun, hlast⟩ := (hrep.setLast k seq).scan k seq
  simp only [HeldState.set_view_self, HeldState.set_set, View.rowOuts, List.nil_append]
    at hrun hlast
  unfold baMoveLast HeldState.app View.moveLast View.rowOuts
  by_cases hnil : runOf seq (h.view k).rows = []
  · rw [if_pos hnil] at hlast
    simp only [hlast, if_true]
    rw [runEnd_of_runOf_nil hnil]
    exact hrun
  · rw [if_neg hnil] at hlast
    have hne : runEnd seq (h.view k).rows ≠ noSeq := by
      have := runEnd_lt hnil
      unfold noSeq
      omega
    simp only [hlast, if_neg hne]
    have hwrite := hrun.setLast k (runEnd seq (h.view k).rows)
    simp only [HeldState.set_view_self, HeldState.set_set, List.append_nil] at hwrite
    exact hwrite

theorem Rep.advance (hrep : Rep s h hand) (k : BaKey) (seq : ℕ) :
    Rep (baMoveLast (baIndicateLeSeq s k seq) k seq) (h.app k (View.advance k seq)) hand := by
  have hend := (hrep.indicate k seq).moveLast k seq
  rw [HeldState.app_app] at hend
  exact hend

theorem Rep.flushLoop {band : ℕ} (fuel : ℕ) (hrep : Rep s h hand)
    (hfuel : (h.view k).rows.length < fuel) (hband : (h.view k).band = band) :
    Rep (baFlushLoop k band fuel s)
      (h.set k ⟨{ h.view k with
        rows := []
        last := ((h.view k).rows.getLast?.map Row.sn).getD (h.view k).last },
        (h.view k).rowOuts k (h.view k).rows⟩) hand := by
  induction fuel generalizing s h with
  | zero => omega
  | succ fuel ih =>
    unfold baFlushLoop View.rowOuts
    cases hrows : (h.view k).rows with
    | nil =>
      rw [hrep.head_eq, hrows]
      simp only [List.head?_nil, Option.map_none, List.getLast?_nil, Option.getD_none,
        List.flatMap_nil]
      rw [← hrows, HeldState.set_same]
      exact hrep
    | cons r rows =>
      obtain ⟨hhead, hsn, -⟩ := hrep.head_sn hrows
      rw [hhead]
      simp only
      have hrow : RowRep s.node r := (hrep.entry k).rows r (by rw [hrows]; exact List.mem_cons_self)
      have hlast := (hrep.pop hrows).2.setLast k r.sn
      have hrel := hlast.releaseMpdu k band hrow
      simp only [HeldState.set_view_self, HeldState.set_set, List.nil_append] at hrel
      have hnext := ih hrel (by
        rw [HeldState.set_view_self]
        rw [hrows, List.length_cons] at hfuel
        exact Nat.lt_of_succ_lt_succ hfuel) (by rw [HeldState.set_view_self]; exact hband)
      simp only [HeldState.set_view_self, HeldState.set_set, View.rowOuts, hband] at hnext
      rw [show ((baPopMpdu s k r.mpdu.ref).node r.mpdu.ref).sn = r.sn from hsn,
        List.flatMap_cons, hband]
      -- the last number left is that of the last row, whatever comes first
      have hend : ((r :: rows).getLast?.map Row.sn).getD (h.view k).last =
          (rows.getLast?.map Row.sn).getD r.sn := by
        rw [List.getLast?_cons]
        cases rows.getLast? <;> rfl
      rw [hend]
      exact hnext

/-- `ba_flush_entry` -/
theorem Rep.flush (hrep : Rep s h hand) (k : BaKey) :
    Rep (baFlushEntry s k) (h.app k (View.flush k)) hand := by
  have hband : (h.view k).band = (s.entry k).band :=
    (congrArg BaCtl.band (hrep.entry k).ctl).symm
  have hloop := hrep.flushLoop nodeFuel (by have := hrep.length_rows_lt k; omega) hband
  unfold baFlushEntry HeldState.app View.flush
  simp only
  have hend := hloop.setCtl k { ((baFlushLoop k (s.entry k).band nodeFuel s).entry k).toBaCtl with
    chain := none }
  simp only [(hloop.entry k).ctl, HeldState.set_view_self, HeldState.set_set, List.append_nil]
    at hend ⊢
  exact hend

/-- `ba_state_update` -/
theorem Rep.stateUpdate (hrep : Rep s h hand) (k : BaKey) (sn checkType : ℕ) :
    Rep (baStateUpdate s k sn checkType) (h.app k (View.stateUpdate k sn checkType)) hand := by
  unfold baStateUpdate View.stateUpdate HeldState.app
  simp only [(hrep.entry k).ctl]
  by_cases hset : (h.view k).settled sn checkType
  · simp only [if_pos hset, HeldState.set_same]
    exact hrep
  · have hchain := hrep.setCtl k { (h.view k).toBaCtl with chain := none }
    simp only [if_neg hset]
    by_cases hflag : (h.view k).flag ≠ 0
    · simp only [if_pos hflag]
      exact hchain
    · simp only [if_neg hflag]
      have hmove := hchain.moveLast k (h.view k).ref
      unfold HeldState.app at hmove
      rw [HeldState.set_view_self, HeldState.set_set] at hmove
      exact hmove

/-- `ba_timeout_entry` -/
theorem Rep.timeout (hrep : Rep s h hand) (k : BaKey) (now limit fuel : ℕ) :
    Rep (baTimeoutLoop k now limit fuel s) (h.app k (View.timeout k now limit fuel)) hand := by
  induction fuel generalizing s h with
  | zero =>
    unfold baTimeoutLoop HeldState.app View.timeout
    rw [HeldState.set_same]
    exact hrep
  | succ fuel ih =>
    unfold baTimeoutLoop HeldState.app View.timeout
    cases hrows : (h.view k).rows with
    | nil =>
      rw [hrep.head_eq, hrows]
      simp only [List.head?_nil, Option.map_none, HeldState.set_same]
      exact hrep
    | cons r rows =>
      obtain ⟨hhead, hsn, htick⟩ := hrep.head_sn hrows
      rw [hhead]
      simp only [htick, hsn]
      by_cases hold : limit < u32 ((now : ℤ) - r.mpdu.tick)
      · simp only [if_pos hold]
        have hnext := ih (hrep.advance k r.sn)
        rw [HeldState.app_app] at hnext
        exact hnext
      · simp only [if_neg hold, HeldState.set_same]
        exact hrep

/-! ## The window loop -/

/-- One pass of the window loop. -/
theorem Rep.slideOnce (hrep : Rep s h hand) (k : BaKey) (sn : ℕ) :
    let t := baMoveLast (baIndicateLeSeq s k (slideTo sn (s.entry k).win)) k
      (slideTo sn (s.entry k).win)
    Rep (t.setCtl k { (t.entry k).toBaCtl with flag := 4 }) (h.app k (View.slideOnce k sn))
      hand := by
  intro t
  have hwin : (s.entry k).win = (h.view k).win := congrArg BaCtl.win (hrep.entry k).ctl
  have hadv : Rep t (h.app k (View.advance k (slideTo sn (h.view k).win))) hand := by
    have := hrep.advance k (slideTo sn (s.entry k).win)
    rw [hwin] at this
    rw [show t = baMoveLast (baIndicateLeSeq s k (slideTo sn (s.entry k).win)) k
      (slideTo sn (s.entry k).win) from rfl, hwin]
    exact this
  rw [(hadv.entry k).ctl]
  have hend := hadv.setCtl k { ((h.app k (View.advance k (slideTo sn (h.view k).win))).view
    k).toBaCtl with flag := 4 }
  unfold HeldState.app at hend
  unfold HeldState.app View.slideOnce
  simp only [HeldState.set_view_self, HeldState.set_set] at hend ⊢
  exact hend

end rep

/-- The window's new start keeps the frame inside the window. -/
theorem slideTo_standing {sn win : ℕ} {c : BaCtl} (hc : c.win = win)
    (hlast : c.last = slideTo sn win) : c.standing sn ≠ none := by
  have hto : (slideTo sn win : ℤ) = ((sn : ℤ) - win) % 4096 := by
    unfold slideTo
    simp only
    split <;> omega
  intro hnone
  unfold BaCtl.standing at hnone
  rw [hc, hlast] at hnone
  split_ifs at hnone with hnext hsame hbehind hinside
  -- the slot behind the window is the one behind the frame
  unfold bit11 at hinside
  omega

/-- A pass that leaves the frame past the window has released a row. -/
theorem View.slideOnce_progress {v : View} {sn : ℕ} (k : BaKey) :
    (v.slideOnce k sn).view.standing sn ≠ none ∨
      (v.slideOnce k sn).view.rows.length < v.rows.length := by
  set rows := (v.indicate k (slideTo sn v.win)).view.rows with hrows
  have hle : rows.length ≤ v.rows.length := by
    rw [hrows]
    unfold View.indicate
    exact (List.dropWhile_suffix _).length_le
  by_cases hnil : runOf (slideTo sn v.win) rows = []
  · left
    have hlast : (v.slideOnce k sn).view.last = slideTo sn v.win := runEnd_of_runOf_nil hnil
    exact slideTo_standing rfl hlast
  · right
    show (runRest (slideTo sn v.win) rows).length < _
    have hsplit := congrArg List.length (runOf_append_runRest (slideTo sn v.win) rows)
    rw [List.length_append] at hsplit
    have := List.length_pos_iff.mpr hnil
    omega

/-- With a pass for each row and two more, the loop ends with the frame
    before the end of the window, and the heap and the view agree on where. -/
theorem Rep.slide {s : BaState} {h : HeldState} {hand : Multiset NodeRef} {k : BaKey}
    (hrep : Rep s h hand) (sn fuel : ℕ)
    (hfuel : (h.view k).rows.length + 2 ≤ fuel ∨
      (h.view k).standing sn ≠ none ∧ 1 ≤ fuel) :
    let t := kiteSlide k sn fuel s
    Rep t.1 (h.app k (View.slide k sn fuel)) hand ∧
      ((h.app k (View.slide k sn fuel)).view k).standing sn = some t.2 := by
  induction fuel generalizing s h with
  | zero => omega
  | succ fuel ih =>
    intro t
    have ht : t = kiteSlide k sn (fuel + 1) s := rfl
    unfold kiteSlide at ht
    rw [HeldState.app_view_self]
    unfold HeldState.app View.slide
    rw [(hrep.entry k).ctl] at ht
    cases hst : (h.view k).standing sn with
    | some p =>
      rw [hst] at ht
      simp only at ht
      rw [ht, if_neg (by simp), HeldState.set_same]
      exact ⟨hrep, hst⟩
    | none =>
      rw [hst] at ht
      simp only at ht
      rw [if_pos rfl]
      have hpass := hrep.slideOnce k sn
      have hmore : (h.view k).rows.length + 2 ≤ fuel + 1 := by
        rcases hfuel with hfuel | ⟨hne, -⟩
        · exact hfuel
        · exact absurd hst hne
      -- a pass takes a row away or puts the frame inside the window
      have hend := ih hpass (by
        rw [HeldState.app_view_self]
        rcases View.slideOnce_progress k with hne | hlt
        · exact .inr ⟨hne, by omega⟩
        · exact .inl (by omega))
      rw [HeldState.app_app, HeldState.app_view_self] at hend
      simp only [(hrep.entry k).ctl] at hend
      rw [ht]
      exact hend

/-! ## Holding a frame -/

/-- A node filled with a cell that is not linked to anything yet. -/
structure Fresh (node : NodeRef → KiteNode) (c : Cell) : Prop where
  filled : Filled node c
  msduHead : (node c.ref).msduHead = none
  msduTail : (node c.ref).msduTail = none

/-- A row does not depend on the `next` field of its MPDU. -/
theorem RowRep.congr_next {node node' : NodeRef → KiteNode} {r : Row} (h : RowRep node r)
    (hmpdu : ∃ n, node' r.mpdu.ref = { node r.mpdu.ref with next := n })
    (heq : ∀ c ∈ r.msdus, node' c.ref = node c.ref) : RowRep node' r := by
  obtain ⟨n, hn⟩ := hmpdu
  refine ⟨?_, ?_, ?_⟩
  · intro c hc
    obtain ⟨hf, hi, hp, ht⟩ := h.filled c hc
    rcases List.mem_cons.mp hc with rfl | hc
    · constructor <;> rw [hn] <;> assumption
    · constructor <;> rw [heq c hc] <;> assumption
  · rw [hn]
    refine h.linked.congr fun x hx => ?_
    obtain ⟨c, hc, rfl⟩ := List.mem_map.mp hx
    rw [heq c hc]
  · rw [hn]
    exact h.tail

section hold

variable {s s' : BaState} {h : HeldState} {hand : Multiset NodeRef} {k : BaKey} {c : Cell}

/-- The search ends between the rows behind the number and the others. -/
theorem findPlace_eq {sn fuel : ℕ} {prev cur : Option NodeRef} {rows : List Row}
    (hlist : Linked (fun x => (s.node x).next) cur (rows.map (·.mpdu.ref)))
    (hrows : ∀ r ∈ rows, RowRep s.node r) (hfuel : rows.length < fuel) :
    kiteFindPlace s sn fuel prev cur =
      (((rows.takeWhile fun r => bit11 ((r.sn : ℤ) - sn)).getLast?.map (·.mpdu.ref)).or prev,
        (rows.dropWhile fun r => bit11 ((r.sn : ℤ) - sn)).head?.map (·.mpdu.ref)) := by
  induction rows generalizing fuel prev cur with
  | nil =>
    obtain ⟨fuel, rfl⟩ : ∃ m, fuel = m + 1 := ⟨fuel - 1, by simp at hfuel; omega⟩
    rw [show cur = none from hlist]
    rfl
  | cons r rows ih =>
    obtain ⟨fuel, rfl⟩ : ∃ m, fuel = m + 1 := ⟨fuel - 1, by simp at hfuel; omega⟩
    have hsn : (s.node r.mpdu.ref).sn = r.sn := by
      have hframe := ((hrows r List.mem_cons_self).filled r.mpdu List.mem_cons_self).frame
      exact congrArg KiteFrame.sn hframe
    rw [hlist.1]
    unfold kiteFindPlace
    rw [hsn]
    by_cases hbehind : bit11 ((r.sn : ℤ) - sn)
    · rw [if_pos hbehind, ih hlist.2 (fun r' hr' => hrows r' (List.mem_cons_of_mem _ hr'))
        (by simpa using hfuel)]
      rw [List.takeWhile_cons_of_pos (by simpa using hbehind),
        List.dropWhile_cons_of_pos (by simpa using hbehind), List.getLast?_cons]
      cases (rows.takeWhile fun r => bit11 ((r.sn : ℤ) - sn)).getLast? <;> rfl
    · rw [if_neg hbehind, List.takeWhile_cons_of_neg (by simpa using hbehind),
        List.dropWhile_cons_of_neg (by simpa using hbehind)]
      rfl

/-- An entry's words after a new MPDU was linked in. -/
def BaEntry.linked (e : BaEntry) (pn : KiteFrame) (node : NodeRef) (head : Option NodeRef) :
    BaEntry :=
  { e with
    head := head
    count := u16 (e.count + 1)
    chain := if pn.amsdu ≤ 1 then none else some node }

theorem kiteLink_none (s : BaState) (k : BaKey) (pn : KiteFrame) (node : NodeRef)
    (cur : Option NodeRef) :
    kiteLink s k pn node none cur =
      { s with
        node := Function.update s.node node { s.node node with next := cur }
        entry := Function.update s.entry k ((s.entry k).linked pn node (some node)) } := by
  unfold kiteLink linkFrom BaState.setNode BaState.setEntry BaEntry.linked
  simp only [Function.update_idem, Function.update_self]

theorem kiteLink_some (s : BaState) (k : BaKey) (pn : KiteFrame) {node b : NodeRef}
    (cur : Option NodeRef) (hne : b ≠ node) :
    kiteLink s k pn node (some b) cur =
      { s with
        node := Function.update (Function.update s.node node { s.node node with next := cur }) b
          { s.node b with next := some node }
        entry := Function.update s.entry k
          ((s.entry k).linked pn node (s.entry k).head) } := by
  unfold kiteLink linkFrom BaState.setNode BaState.setEntry BaEntry.linked
  simp only [Function.update_of_ne hne]

/-- The view with a new row. -/
def View.linked (v : View) (c : Cell) (before after : List Row) : View :=
  { v with
    rows := before ++ ⟨c, []⟩ :: after
    chain := if c.frame.amsdu ≤ 1 then none else some c.ref }

/-- The row of a node filled afresh. -/
theorem Fresh.rowRep {node node' : NodeRef → KiteNode} (h : Fresh node c)
    (hnext : ∃ n, node' c.ref = { node c.ref with next := n }) : RowRep node' ⟨c, []⟩ := by
  obtain ⟨⟨hframe, hidx, hpool, htick⟩, hmh, hmt⟩ := h
  obtain ⟨n, hn⟩ := hnext
  refine ⟨?_, ?_, ?_⟩
  · intro c' hc'
    rw [List.mem_singleton.mp hc']
    constructor <;> rw [hn] <;> assumption
  · rw [hn]
    exact hmh
  · rw [hn]
    exact hmt

/-- A node in hand becomes a row between `before` and `after`. -/
theorem Rep.link {before after : List Row} (hrep : Rep s h (c.ref ::ₘ hand))
    (hfresh : Fresh s.node c) (hrows : (h.view k).rows = before ++ after) :
    Rep (kiteLink s k c.frame c.ref (before.getLast?.map (·.mpdu.ref))
      (after.head?.map (·.mpdu.ref))) (h.set k ⟨(h.view k).linked c before after, []⟩) hand := by
  obtain ⟨hctl, hlist, hcount, hrep'⟩ := hrep.entry k
  have hhand : c.ref ∈ c.ref ::ₘ hand := Multiset.mem_cons_self ..
  have hlen := hrep.length_rows_lt k
  have hne : ∀ k', ∀ x ∈ (h.view k').refs, x ≠ c.ref := by
    rintro k' x hx rfl
    exact hrep.not_held_of_hand hhand hx
  have hnodes : freeNodes s + (((h.view k).linked c before after).refs : Multiset NodeRef) + hand =
      freeNodes s + ((h.view k).refs : Multiset NodeRef) + c.ref ::ₘ hand := by
    have hcell : (⟨c, []⟩ : Row).refs = [c.ref] := rfl
    unfold View.refs View.linked
    simp only [hrows, List.flatMap_append, List.flatMap_cons, hcell, ← Multiset.coe_add,
      Multiset.coe_singleton, ← Multiset.singleton_add]
    abel
  have hctl' : ∀ head, ((s.entry k).linked c.frame c.ref head).toBaCtl =
      ((h.view k).linked c before after).toBaCtl := by
    intro head
    unfold BaEntry.linked View.linked
    simp only [hctl]
  have hcount' : u16 ((s.entry k).count + 1) = ((h.view k).linked c before after).rows.length := by
    rw [hcount, hrows]
    rw [hrows] at hlen
    unfold nodeFuel reorderPriPoolSize reorderSecPoolSize at hlen
    unfold View.linked u16
    simp only [List.length_append, List.length_cons] at hlen ⊢
    omega
  rw [hrows, List.map_append] at hlist
  have hafter : ∀ r ∈ before ++ after, ∀ x ∈ r.refs, x ∈ (h.view k).refs := by
    intro r hr x hx
    exact View.mem_refs (by rw [hrows]; exact hr) hx
  rcases List.eq_nil_or_concat' before with rfl | ⟨init, b, rfl⟩
  · -- the new row is the first
    rw [List.getLast?_nil, Option.map_none, kiteLink_none]
    have hsame : ∀ k', ∀ x ∈ (h.view k').refs,
        Function.update s.node c.ref { s.node c.ref with
          next := after.head?.map (·.mpdu.ref) } x = s.node x := by
      intro k' x hx
      exact Function.update_of_ne (hne k' x hx) _ _
    refine hrep.set _ (List.append_nil _).symm ?_ (fun k' hk => Function.update_of_ne hk _ _)
      (fun k' _ => hsame k') hnodes hrep.pri hrep.sec
    simp only [Function.update_self]
    refine ⟨hctl' _, ?_, hcount', ?_⟩
    · refine hlist.insert_first ?_ fun x hx => ?_
      · simp only [Function.update_self]
        rw [hlist.head_eq]
        simp
      · obtain ⟨r, hr, rfl⟩ := List.mem_map.mp hx
        rw [hsame k _ (hafter r hr _ r.mem_refs_mpdu)]
    · intro r hr
      rcases List.mem_cons.mp hr with rfl | hr
      · exact hfresh.rowRep ⟨_, Function.update_self ..⟩
      · exact (hrep' r (by rw [hrows]; exact hr)).congr fun x hx => hsame k x (hafter r hr x hx)
  · -- the new row follows `b`
    have hbrow : b ∈ init ++ [b] ++ after := by simp
    have hbref : b.mpdu.ref ∈ (h.view k).refs := hafter b hbrow _ b.mem_refs_mpdu
    have hbne : b.mpdu.ref ≠ c.ref := hne k _ hbref
    rw [List.getLast?_concat, Option.map_some, kiteLink_some _ _ _ _ hbne]
    set node' := Function.update (Function.update s.node c.ref { s.node c.ref with
      next := after.head?.map (·.mpdu.ref) }) b.mpdu.ref
      { s.node b.mpdu.ref with next := some c.ref } with hnode'
    have hself : node' c.ref = { s.node c.ref with next := after.head?.map (·.mpdu.ref) } := by
      rw [hnode', Function.update_of_ne hbne.symm, Function.update_self]
    have hb : node' b.mpdu.ref = { s.node b.mpdu.ref with next := some c.ref } :=
      Function.update_self ..
    have hsame : ∀ k', ∀ x ∈ (h.view k').refs, x ≠ b.mpdu.ref → node' x = s.node x := by
      intro k' x hx hxb
      rw [hnode', Function.update_of_ne hxb, Function.update_of_ne (hne k' x hx)]
    -- `b`'s node is in no other row, and is not one of its own MSDUs'
    have hsplit : (h.view k).rows = init ++ b :: after := by simp [hrows]
    obtain ⟨hbnd, hbother⟩ := hrep.row_nodup hsplit
    have hother : ∀ r ∈ init ++ after, ∀ x ∈ r.refs, node' x = s.node x := by
      intro r hr x hx
      refine hsame k x (hafter r ?_ x hx) ?_
      · simp only [List.mem_append, List.mem_singleton] at hr ⊢
        tauto
      · rintro rfl
        exact hbother r hr _ hx b.mem_refs_mpdu
    refine hrep.set _ (List.append_nil _).symm ?_ (fun k' hk => Function.update_of_ne hk _ _)
      (fun k' hk x hx => hsame k' x hx ?_) hnodes hrep.pri hrep.sec
    · simp only [Function.update_self]
      refine ⟨hctl' _, ?_, hcount', ?_⟩
      · have hlist' : Linked (fun x => (s.node x).next) (s.entry k).head
            (init.map (·.mpdu.ref) ++ b.mpdu.ref :: after.map (·.mpdu.ref)) := by
          simpa using hlist
        have hins : Linked (fun x => (node' x).next) (s.entry k).head
            (init.map (·.mpdu.ref) ++ b.mpdu.ref :: c.ref :: after.map (·.mpdu.ref)) := by
          apply hlist'.insert_after
          · simp only [hb]
          · simp only [hself]
            rw [hlist'.after.head_eq, List.head?_map]
          · intro x hx
            rw [← List.map_append] at hx
            obtain ⟨r, hr, rfl⟩ := List.mem_map.mp hx
            rw [hother r hr _ r.mem_refs_mpdu]
        unfold View.linked
        simpa [BaEntry.linked] using hins
      · intro r hr
        have hcases : r = ⟨c, []⟩ ∨ r = b ∨ r ∈ init ++ after := by
          unfold View.linked at hr
          simp only [List.mem_append, List.mem_cons, List.not_mem_nil, or_false] at hr ⊢
          tauto
        rcases hcases with rfl | rfl | hr
        · exact hfresh.rowRep ⟨_, hself⟩
        · refine (hrep' r (by rw [hrows]; simp)).congr_next ⟨_, hb⟩ fun c' hc' => ?_
          refine hsame k _ (hafter r hbrow _ (List.mem_cons_of_mem _ (List.mem_map_of_mem hc'))) ?_
          intro heq
          rw [Row.refs_eq] at hbnd
          refine (List.nodup_cons.mp hbnd).1 ?_
          rw [← heq]
          exact List.mem_map_of_mem hc'
        · refine (hrep' r ?_).congr (hother r hr)
          rw [hsplit]
          simp only [List.mem_append, List.mem_cons] at hr ⊢
          tauto
    · rintro rfl
      exact hrep.not_held_of_ne hk hbref hx

end hold

end ClankerNPU.Kite
