import ClankerNPU.Kite.Window

/-! # The window loop keeps the frame

    From an entry in good order the `while (1)` of `kite_classify_pn` ends
    after one pass at most, with the frame next in line or inside the
    window. It is then delivered, held or known, unless `entry[3]` names
    an MPDU that has left the list: what is chained to that is lost. -/

open LinkedList

namespace ClankerNPU.Kite

/-! ## The loop without fuel -/

/-- One pass of the loop. -/
def kitePass (k : BaKey) (sn : ℕ) (s : BaState) : BaState :=
  let fs := slideTo sn (s.entry k).win
  let s := baMoveLast (baIndicateLeSeq s k fs) k fs
  s.setCtl k { (s.entry k).toBaCtl with flag := 4 }

/-- After `n` passes the frame stands somewhere. -/
inductive WindowLoop (k : BaKey) (sn : ℕ) : ℕ → BaState → BaState → Standing → Prop
  | stop {s : BaState} {st : Standing} :
      (s.entry k).standing sn = some st → WindowLoop k sn 0 s s st
  | pass {n : ℕ} {s t : BaState} {st : Standing} :
      (s.entry k).standing sn = none → WindowLoop k sn n (kitePass k sn s) t st →
        WindowLoop k sn (n + 1) s t st

variable {s t : BaState} {h : HeldState} {hand : Multiset NodeRef} {k : BaKey} {pn : KiteFrame}
  {sn n : ℕ} {st : Standing}

/-- With fuel for the passes `kiteSlide` is the loop. -/
theorem WindowLoop.kiteSlide (hloop : WindowLoop k sn n s t st) {fuel : ℕ} (hfuel : n < fuel) :
    kiteSlide k sn fuel s = (t, st) := by
  induction hloop generalizing fuel with
  | stop hst =>
    obtain ⟨fuel, rfl⟩ : ∃ m, fuel = m + 1 := ⟨fuel - 1, by omega⟩
    unfold Kite.kiteSlide
    rw [hst]
  | pass hst _ ih =>
    obtain ⟨fuel, rfl⟩ : ∃ m, fuel = m + 1 := ⟨fuel - 1, by omega⟩
    unfold Kite.kiteSlide
    rw [hst]
    exact ih (by omega)

/-! ## What becomes of the frame -/

/-- The nodes of an entry's list: its MPDUs and their further MSDUs. -/
def HeldNode (s : BaState) (k : BaKey) (x : NodeRef) : Prop :=
  Meets (fun x => (s.node x).next) (s.entry k).head x ∨
    ∃ r, Meets (fun x => (s.node x).next) (s.entry k).head r ∧
      Meets (fun x => (s.node x).next) (s.node r).msduHead x

theorem EntryRep.heldNode_iff {v : View} {x : NodeRef} (hrep : EntryRep s.node (s.entry k) v) :
    HeldNode s k x ↔ x ∈ v.refs := by
  have hhead : ∀ x, Meets (fun x => (s.node x).next) (s.entry k).head x ↔
      ∃ r ∈ v.rows, r.mpdu.ref = x := fun x => by rw [hrep.list.meets_iff, List.mem_map]
  have hmsdu : ∀ r ∈ v.rows, Meets (fun x => (s.node x).next) (s.node r.mpdu.ref).msduHead x ↔
      x ∈ r.msdus.map (·.ref) := fun r hr => (hrep.rows r hr).linked.meets_iff
  unfold HeldNode View.refs
  rw [List.mem_flatMap]
  constructor
  · rintro (hx | ⟨m, hm, hx⟩)
    · obtain ⟨r, hr, rfl⟩ := (hhead x).mp hx
      exact ⟨r, hr, r.mem_refs_mpdu⟩
    · obtain ⟨r, hr, rfl⟩ := (hhead m).mp hm
      exact ⟨r, hr, List.mem_cons_of_mem _ ((hmsdu r hr).mp hx)⟩
  · rintro ⟨r, hr, hx⟩
    rw [Row.refs_eq, List.mem_cons] at hx
    rcases hx with rfl | hx
    · exact .inl ((hhead _).mpr ⟨r, hr, rfl⟩)
    · exact .inr ⟨_, (hhead _).mpr ⟨r, hr, rfl⟩, (hmsdu r hr).mpr hx⟩

/-- The frame is not lost from `s` to `t`: it is sent on, it is in the
    list, or its number was and its buffer goes back. -/
inductive Kept (s t : BaState) (k : BaKey) (pn : KiteFrame) : Prop
  | delivered (rest : List Out) :
      t.outs = s.outs ++ bridgeOut k pn (s.entry k).band pn.bss :: rest → Kept s t k pn
  | held (x : NodeRef) :
      HeldNode t k x → ¬HeldNode s k x → (t.node x).toKiteFrame = pn → Kept s t k pn
  | known (m : NodeRef) :
      Meets (fun x => (s.node x).next) (s.entry k).head m → (s.node m).sn = pn.sn →
        t.outs = s.outs ++ [.free (s.entry k).band pn.bufId] → Kept s t k pn

/-- A node that `entry[3]` may name: a held MPDU, or a node whose last
    MSDU, if any, is not in the entry's list. A release leaves it none. -/
def ChainNode (node : NodeRef → KiteNode) (rows : List Row) (sub : NodeRef) : Prop :=
  (∃ r ∈ rows, r.mpdu.ref = sub) ∨
    ((∀ r ∈ rows, r.mpdu.ref ≠ sub) ∧
      ∀ x, (node sub).msduTail = some x → ∀ r ∈ rows, x ∉ r.refs)

/-! ## The chained node during releases -/

theorem releaseMsdus_other {mpdu x : NodeRef} (band : ℕ) (hx : x ≠ mpdu) (fuel : ℕ)
    (s : BaState) : (baReleaseMsdus k mpdu band fuel s).node x = s.node x := by
  induction fuel generalizing s with
  | zero => rfl
  | succ fuel ih =>
    unfold baReleaseMsdus
    split
    · rfl
    · rw [ih]
      unfold reorderNodeFree
      split <;> exact Function.update_of_ne hx _ _

/-- Releasing its MSDUs leaves an MPDU's node without any. -/
theorem releaseMsdus_tail {mpdu : NodeRef} (band : ℕ) {l : List NodeRef} {fuel : ℕ}
    (hlinked : Linked (fun x => (s.node x).next) (s.node mpdu).msduHead l) (hnot : mpdu ∉ l)
    (htail : (s.node mpdu).msduTail = l.getLast?) (hfuel : l.length < fuel) :
    ((baReleaseMsdus k mpdu band fuel s).node mpdu).msduTail = none := by
  induction l generalizing s fuel with
  | nil =>
    obtain ⟨fuel, rfl⟩ : ∃ m, fuel = m + 1 := ⟨fuel - 1, by simp at hfuel; omega⟩
    unfold baReleaseMsdus
    rw [show (s.node mpdu).msduHead = none from hlinked]
    exact htail
  | cons x l ih =>
    obtain ⟨fuel, rfl⟩ : ∃ m, fuel = m + 1 := ⟨fuel - 1, by simp at hfuel; omega⟩
    unfold baReleaseMsdus
    rw [hlinked.1]
    simp only
    set m' : KiteNode := { s.node mpdu with
      msduCnt := u16 ((s.node mpdu).msduCnt - 1)
      msduHead := (s.node x).next
      msduTail := if (s.node x).next = none then none else (s.node mpdu).msduTail } with hm'
    set t := reorderNodeFree ((s.setNode mpdu m').emit (bridgeOut k (s.node x).toKiteFrame band
      (s.node mpdu).bss)) (s.node x).idx (s.node x).pool with ht
    have htnode : t.node = Function.update s.node mpdu m' := by
      rw [ht]
      unfold reorderNodeFree BaState.emit BaState.setNode
      split <;> rfl
    have hself : t.node mpdu = m' := by rw [htnode, Function.update_self]
    have hnext : ∀ y ∈ l, (t.node y).next = (s.node y).next := by
      intro y hy
      rw [htnode, Function.update_of_ne]
      rintro rfl
      exact hnot (List.mem_cons_of_mem _ hy)
    refine ih ?_ (fun hmem => hnot (List.mem_cons_of_mem _ hmem)) ?_ (by simpa using hfuel)
    · rw [hself]
      exact hlinked.2.congr hnext
    · rw [hself, hm']
      simp only
      have hhead : (s.node x).next = l.head? := hlinked.2.head_eq
      cases l with
      | nil =>
        rw [List.head?_nil] at hhead
        rw [if_pos hhead, List.getLast?_nil]
      | cons y l =>
        rw [if_neg (by rw [hhead]; simp), htail]
        rfl

theorem releaseMpdu_node {mpdu : NodeRef} (band : ℕ) (s : BaState) :
    (baReleaseMpdu s k mpdu band).node = (baReleaseMsdus k mpdu band nodeFuel
      (s.emit (bridgeOut k (s.node mpdu).toKiteFrame band (s.node mpdu).bss))).node := by
  unfold baReleaseMpdu
  dsimp only
  unfold reorderNodeFree
  split <;> rfl

theorem releaseMpdu_other {mpdu x : NodeRef} (band : ℕ) (hx : x ≠ mpdu) (s : BaState) :
    (baReleaseMpdu s k mpdu band).node x = s.node x := by
  rw [releaseMpdu_node, releaseMsdus_other band hx]
  rfl

/-- An MPDU that was released has no MSDU left. -/
theorem releaseMpdu_tail {r : Row} (band : ℕ) (hrow : RowRep s.node r) (hnodup : r.refs.Nodup)
    (hlen : r.msdus.length < nodeFuel) :
    ((baReleaseMpdu s k r.mpdu.ref band).node r.mpdu.ref).msduTail = none := by
  rw [Row.refs_eq] at hnodup
  rw [releaseMpdu_node]
  exact releaseMsdus_tail band hrow.linked (List.nodup_cons.mp hnodup).1 hrow.tail
    (by rw [List.length_map]; exact hlen)

theorem Rep.length_msdus_lt {hand : Multiset NodeRef} {r : Row} (hrep : Rep s h hand)
    (hr : r ∈ (h.view k).rows) : r.msdus.length < nodeFuel := by
  have hle : r.refs.length ≤ (h.view k).refs.length := by
    unfold View.refs
    obtain ⟨before, after, hrows⟩ := List.append_of_mem hr
    rw [hrows, List.flatMap_append, List.flatMap_cons, List.length_append, List.length_append]
    omega
  have hcard := hrep.card_le k
  rw [Row.refs_eq, List.length_cons, List.length_map] at hle
  unfold nodeFuel
  omega

/-- Releasing the first row keeps a node one that may be chained to. -/
theorem ChainNode.release {hand : Multiset NodeRef} {r : Row} {rows : List Row} {sub : NodeRef}
    (band : ℕ) (hrep : Rep s h hand) (hrows : (h.view k).rows = r :: rows)
    (hsub : ChainNode s.node (r :: rows) sub) :
    ChainNode (baReleaseMpdu (baPopMpdu s k r.mpdu.ref) k r.mpdu.ref band).node rows sub := by
  obtain ⟨hnodup, hapart⟩ := hrep.row_nodup (p := []) hrows
  rcases hsub with ⟨r', hr', rfl⟩ | ⟨hout, htail⟩
  · rcases List.mem_cons.mp hr' with rfl | hr'
    · right
      refine ⟨fun r'' hr'' heq => hapart r'' hr'' _ r''.mem_refs_mpdu (heq ▸ r'.mem_refs_mpdu), ?_⟩
      have hmem : r' ∈ (h.view k).rows := by
        rw [hrows]
        exact hr'
      have hnone := releaseMpdu_tail (s := baPopMpdu s k r'.mpdu.ref) (k := k) band
        ((hrep.entry k).rows r' hmem) hnodup (hrep.length_msdus_lt hmem)
      intro x hx
      rw [hnone] at hx
      cases hx
    · exact .inl ⟨r', hr', rfl⟩
  · right
    refine ⟨fun r' hr' => hout r' (List.mem_cons_of_mem _ hr'), ?_⟩
    rw [releaseMpdu_other band (hout r List.mem_cons_self).symm]
    exact fun x hx r' hr' => htail x hx r' (List.mem_cons_of_mem _ hr')

theorem ChainNode.indicateLoop {hand : Multiset NodeRef} {sub : NodeRef} {band seq fuel : ℕ}
    (hrep : Rep s h hand) (hsub : ChainNode s.node (h.view k).rows sub)
    (hfuel : (h.view k).rows.length < fuel) (hband : (h.view k).band = band) :
    ChainNode (baIndicateLoop k band seq fuel s).node
      ((h.view k).indicate k seq).view.rows sub := by
  induction fuel generalizing s h with
  | zero => omega
  | succ fuel ih =>
    unfold baIndicateLoop View.indicate
    cases hrows : (h.view k).rows with
    | nil =>
      rw [hrep.head_eq, hrows]
      rw [hrows] at hsub
      exact hsub
    | cons r rows =>
      obtain ⟨hhead, hsn, -⟩ := hrep.head_sn hrows
      rw [hhead]
      simp only [hsn]
      rw [hrows] at hsub
      by_cases hpast : pastSeq r.sn seq
      · rw [if_pos hpast, List.dropWhile_cons_of_neg (by simpa using hpast)]
        exact hsub
      · rw [if_neg hpast, List.dropWhile_cons_of_pos (by simpa using hpast)]
        have hnext := ih (hrep.releaseHead band hrows) (by
          rw [HeldState.set_view_self]
          exact hsub.release band hrep hrows) (by
          rw [HeldState.set_view_self]
          rw [hrows, List.length_cons] at hfuel
          exact Nat.lt_of_succ_lt_succ hfuel) (by rw [HeldState.set_view_self]; exact hband)
        rw [HeldState.set_view_self] at hnext
        exact hnext

theorem ChainNode.scanLoop {hand : Multiset NodeRef} {sub : NodeRef} (band fuel seq last : ℕ)
    (hrep : Rep s h hand) (hsub : ChainNode s.node (h.view k).rows sub)
    (hfuel : (h.view k).rows.length < fuel) (hband : (h.view k).band = band) :
    ChainNode (baScanLoop k band fuel s seq last).1.node (runRest seq (h.view k).rows) sub := by
  induction fuel generalizing s h seq last with
  | zero => omega
  | succ fuel ih =>
    unfold baScanLoop
    cases hrows : (h.view k).rows with
    | nil =>
      rw [hrep.head_eq, hrows]
      rw [hrows] at hsub
      exact hsub
    | cons r rows =>
      obtain ⟨hhead, hsn, -⟩ := hrep.head_sn hrows
      rw [hhead]
      simp only [hsn, runRest]
      rw [hrows] at hsub
      by_cases hnext : r.sn = (seq + 1) % 4096
      · rw [if_pos hnext, if_pos hnext]
        have hrun := ih r.sn r.sn (hrep.releaseHead band hrows) (by
          rw [HeldState.set_view_self]
          exact hsub.release band hrep hrows) (by
          rw [HeldState.set_view_self]
          rw [hrows, List.length_cons] at hfuel
          exact Nat.lt_of_succ_lt_succ hfuel) (by rw [HeldState.set_view_self]; exact hband)
        rw [HeldState.set_view_self] at hrun
        exact hrun
      · rw [if_neg hnext, if_neg hnext]
        exact hsub

/-- A pass of the window loop keeps a node one that may be chained to. -/
theorem ChainNode.pass {sub : NodeRef} (hrep : Rep s h hand)
    (hsub : ChainNode s.node (h.view k).rows sub) (sn : ℕ) :
    ChainNode (kitePass k sn s).node ((h.view k).slideOnce k sn).view.rows sub := by
  have hwin : (s.entry k).win = (h.view k).win := congrArg BaCtl.win (hrep.entry k).ctl
  set seq := slideTo sn (h.view k).win with hseq
  have hband : (h.view k).band = (s.entry k).band :=
    (congrArg BaCtl.band (hrep.entry k).ctl).symm
  have hfuel := hrep.length_rows_lt k
  have hind : ChainNode (baIndicateLeSeq s k seq).node ((h.view k).indicate k seq).view.rows sub :=
    ChainNode.indicateLoop hrep hsub (by omega) hband
  have hrep1 := hrep.indicate k seq
  have hrep2 := hrep1.setLast k seq
  have hfuel2 := hrep2.length_rows_lt k
  have hscan := ChainNode.scanLoop (((baIndicateLeSeq s k seq).setCtl k
      { ((baIndicateLeSeq s k seq).entry k).toBaCtl with last := seq }).entry k).band
    nodeFuel seq noSeq hrep2 (by
      rw [HeldState.set_view_self]
      show ChainNode _ ((h.app k (View.indicate k seq)).view k).rows sub
      rw [HeldState.app_view_self]
      exact hind) (by omega) (by
      rw [HeldState.set_view_self, setCtl_self, (hrep1.entry k).ctl])
  rw [HeldState.set_view_self] at hscan
  have hrest : ChainNode (baMoveLast (baIndicateLeSeq s k seq) k seq).node
      (runRest seq ((h.view k).indicate k seq).view.rows) sub := by
    have hmove : (baMoveLast (baIndicateLeSeq s k seq) k seq).node =
        (baSeqScan ((baIndicateLeSeq s k seq).setCtl k
          { ((baIndicateLeSeq s k seq).entry k).toBaCtl with last := seq }) k seq).1.node := by
      unfold baMoveLast
      simp only
      split <;> rfl
    rw [hmove]
    rw [HeldState.app_view_self] at hscan
    exact hscan
  unfold kitePass
  simp only
  rw [hwin]
  exact hrest

/-- The frame is next in line when the loop ends, or no MPDU is chained
    to, or it is held and stays so: some number in the window it ends in
    is missing before it. -/
def View.ChainKeeps (v : View) (sn : ℕ) : Prop :=
  ∀ sub, v.chain = some sub →
    (∀ j, overshoot v sn < j → j < ahead v.last sn → HeldAt v.last v.rows j) ∨
      ∃ r ∈ v.rows, r.mpdu.ref = sub ∧
        ∃ j, overshoot v sn < j ∧ j < ahead v.last r.sn ∧ ¬HeldAt v.last v.rows j

/-! ## A node for the frame -/

theorem length_contents (s : BaState) :
    (freeNodes s).card = (s.pri.contents reorderPriPoolSize).length +
      (s.sec.contents reorderSecPoolSize).length := by
  unfold freeNodes
  rw [Multiset.card_add, Multiset.card_map, Multiset.card_map, Multiset.coe_card,
    Multiset.coe_card]

/-- While the nodes in use are no more than the rx buffers, one is left. -/
theorem Rep.nodeAlloc_isSome (hrep : Rep s h hand)
    (hbufs : (heldNodes h + hand).card ≤ 5600) : ∃ x s', reorderNodeAlloc s = some (x, s') := by
  have hcard := congrArg Multiset.card hrep.nodes
  rw [add_assoc, Multiset.card_add, length_contents, card_allNodes] at hcard
  unfold reorderPriPoolSize reorderSecPoolSize at hcard
  unfold reorderNodeAlloc
  cases hpri : s.pri.take reorderPriPoolSize with
  | some x => exact ⟨_, _, rfl⟩
  | none =>
    cases hsec : s.sec.take reorderSecPoolSize with
    | some x => exact ⟨_, _, rfl⟩
    | none =>
      -- each pool can only have its last node left
      have h1 : ¬2 ≤ (s.pri.contents reorderPriPoolSize).length := by
        intro hmore
        obtain ⟨x, hx⟩ := hrep.pri.take_isSome hmore
        rw [hpri] at hx
        cases hx
      have h2 : ¬2 ≤ (s.sec.contents reorderSecPoolSize).length := by
        intro hmore
        obtain ⟨x, hx⟩ := hrep.sec.take_isSome hmore
        rw [hsec] at hx
        cases hx
      unfold reorderPriPoolSize at h1
      unfold reorderSecPoolSize at h2
      omega

/-! ## The branches -/

theorem Rep.mpdu_met {r : Row} (hrep : Rep s h hand)
    (hr : r ∈ (h.view k).rows) :
    Meets (fun x => (s.node x).next) (s.entry k).head r.mpdu.ref ∧
      (s.node r.mpdu.ref).sn = r.sn := by
  obtain ⟨-, hlist, -, hrows⟩ := hrep.entry k
  refine ⟨hlist.meets_iff.mpr (List.mem_map.mpr ⟨r, hr, rfl⟩), ?_⟩
  exact congrArg KiteFrame.sn ((hrows r hr).filled r.mpdu List.mem_cons_self).frame

/-- A new cell in the entry's rows keeps its frame. -/
theorem Rep.kept_of_cell {h' : HeldState} {node : NodeRef} {s1 : BaState} {r : Row} {c : Cell}
    (hrep : Rep s h hand) (halloc : reorderNodeAlloc s = some (node, s1)) (hrep' : Rep t h' hand)
    (hr : r ∈ (h'.view k).rows) (hc : c ∈ r.cells) (href : c.ref = node) (hframe : c.frame = pn) :
    Kept s t k pn := by
  refine .held node ?_ ?_ ?_
  · rw [(hrep'.entry k).heldNode_iff, ← href]
    exact View.mem_refs hr (List.mem_map_of_mem hc)
  · rw [(hrep.entry k).heldNode_iff]
    exact (hrep.nodeAlloc halloc).not_held_of_hand (Multiset.mem_cons_self ..)
  · rw [← href, (((hrep'.entry k).rows r hr).filled c hc).frame, hframe]

/-- With nothing to chain to, the frame gets its place or is known. -/
theorem Rep.kept_insert (hrep : Rep s h hand) (hbufs : (heldNodes h + hand).card ≤ 5600)
    (hchain : (h.view k).chain = none) (tick : ℕ) : Kept s (kiteHold s k pn tick) k pn := by
  obtain ⟨node, s1, halloc⟩ := hrep.nodeAlloc_isSome hbufs
  have hchains : (h.view k).Chains := by
    intro sub hsub
    rw [hchain] at hsub
    cases hsub
  have hend : Rep (kiteHold s k pn tick) _ _ := hrep.hold hchains tick
  rw [halloc] at hend
  set v := h.view k with hv
  by_cases hheld : (v.after pn.sn).head?.map Row.sn = some pn.sn
  · obtain ⟨r, hr, hsn⟩ := Option.map_eq_some_iff.mp hheld
    have hmem : r ∈ v.rows := (List.dropWhile_suffix _).subset (List.mem_of_head? hr)
    obtain ⟨hmet, hnode⟩ := hrep.mpdu_met hmem
    have houts : (View.hold (some node) pn tick v).outs = [.free v.band pn.bufId] := by
      unfold View.hold View.insert
      rw [hchain]
      simp only
      rw [if_pos hheld]
    have hband : (s.entry k).band = v.band := congrArg BaCtl.band (hrep.entry k).ctl
    refine .known r.mpdu.ref hmet (hnode.trans hsn) ?_
    rw [hend.outs, hrep.outs, hband, ← houts]
    rfl
  · refine hrep.kept_of_cell (k := k) (r := ⟨⟨node, pn, tick⟩, []⟩) (c := ⟨node, pn, tick⟩) halloc
      hend ?_ List.mem_cons_self rfl rfl
    rw [HeldState.app_view_self]
    unfold View.hold View.insert
    rw [← hv, hchain]
    simp only [Option.map_some]
    rw [if_neg hheld]
    exact List.mem_append_right _ List.mem_cons_self

/-- With a held MPDU to chain to, the frame joins it. -/
theorem Rep.kept_chain {r : Row} (hrep : Rep s h hand) (hbufs : (heldNodes h + hand).card ≤ 5600)
    (hr : r ∈ (h.view k).rows) (hchain : (h.view k).chain = some r.mpdu.ref) (tick : ℕ) :
    Kept s (kiteHold s k pn tick) k pn := by
  obtain ⟨node, s1, halloc⟩ := hrep.nodeAlloc_isSome hbufs
  obtain ⟨before, after, hrows⟩ := List.append_of_mem hr
  have hchains : (h.view k).Chains := by
    intro sub hsub
    rw [hchain] at hsub
    obtain rfl := Option.some.inj hsub
    exact ⟨before, r, after, hrows, rfl⟩
  have hend : Rep (kiteHold s k pn tick) _ _ := hrep.hold hchains tick
  rw [halloc] at hend
  refine hrep.kept_of_cell (k := k) (r := r.more ⟨node, pn, tick⟩) (c := ⟨node, pn, tick⟩) halloc
    hend ?_ (by unfold Row.more Row.cells; simp) rfl rfl
  rw [HeldState.app_view_self]
  unfold View.hold
  rw [hchain]
  simp only [Option.map_some]
  show r.more ⟨node, pn, tick⟩ ∈ ((h.view k).chainTo r.mpdu.ref ⟨node, pn, tick⟩).rows
  rw [chainTo_eq hrows (hrep.nodup_refs k)]
  exact List.mem_append_right _ List.mem_cons_self

/-- The fields of a node that a list of other nodes depends on. -/
structure SameCell (n n' : KiteNode) : Prop where
  frame : n'.toKiteFrame = n.toKiteFrame
  idx : n'.idx = n.idx
  pool : n'.pool = n.pool
  tick : n'.tick = n.tick
  next : n'.next = n.next

theorem RowRep.congr_cells {node node' : NodeRef → KiteNode} {r : Row} (hrow : RowRep node r)
    (hcells : ∀ c ∈ r.cells, SameCell (node c.ref) (node' c.ref))
    (hmpdu : node' r.mpdu.ref = node r.mpdu.ref) : RowRep node' r := by
  refine ⟨?_, ?_, ?_⟩
  · intro c hc
    obtain ⟨hf, hi, hp, ht⟩ := hrow.filled c hc
    obtain ⟨hf', hi', hp', ht', -⟩ := hcells c hc
    exact ⟨hf'.trans hf, hi'.trans hi, hp'.trans hp, ht'.trans ht⟩
  · rw [hmpdu]
    refine hrow.linked.congr fun x hx => ?_
    obtain ⟨c, hc, rfl⟩ := List.mem_map.mp hx
    exact (hcells c (List.mem_cons_of_mem _ hc)).next
  · rw [hmpdu]
    exact hrow.tail

/-- Chaining to a node writes its MSDU fields, the new node and the link
    of the last MSDU. -/
theorem kiteChain_cell {sub node x : NodeRef} (hnode : x ≠ node)
    (htail : (s.node sub).msduTail ≠ some x) :
    SameCell (s.node x) ((kiteChain s sub node).node x) := by
  cases hlast : (s.node sub).msduTail with
  | none =>
    by_cases hsub : x = sub
    · subst hsub
      constructor <;> simp [kiteChain, BaState.setNode, hlast, Function.update_of_ne hnode]
    · constructor <;> simp [kiteChain, BaState.setNode, hlast, Function.update_of_ne hnode,
        Function.update_of_ne hsub]
  | some y =>
    have hxy : x ≠ y := fun heq => htail (by rw [hlast, heq])
    by_cases hsub : x = sub
    · subst hsub
      constructor <;> simp [kiteChain, BaState.setNode, hlast, Function.update_of_ne hnode,
        Function.update_of_ne hxy]
    · constructor <;> simp [kiteChain, BaState.setNode, hlast, Function.update_of_ne hnode,
        Function.update_of_ne hsub, Function.update_of_ne hxy]

theorem kiteChain_other {sub node x : NodeRef} (hsub : x ≠ sub) (hnode : x ≠ node)
    (htail : (s.node sub).msduTail ≠ some x) : (kiteChain s sub node).node x = s.node x := by
  cases hlast : (s.node sub).msduTail with
  | none =>
    simp [kiteChain, BaState.setNode, hlast, Function.update_of_ne hsub,
      Function.update_of_ne hnode]
  | some y =>
    have hxy : x ≠ y := fun heq => htail (by rw [hlast, heq])
    simp [kiteChain, BaState.setNode, hlast, Function.update_of_ne hsub,
      Function.update_of_ne hnode, Function.update_of_ne hxy]

theorem kiteChain_entry (s : BaState) (sub node : NodeRef) :
    (kiteChain s sub node).entry = s.entry ∧ (kiteChain s sub node).outs = s.outs := by
  unfold kiteChain BaState.setNode
  simp only
  split <;> exact ⟨rfl, rfl⟩

/-- What is chained to a node outside of the list is lost. -/
theorem Rep.not_kept {sub : NodeRef} (hrep : Rep s h hand) (hbufs : (heldNodes h + hand).card ≤ 5600)
    (hchain : (h.view k).chain = some sub) (hout : ∀ r ∈ (h.view k).rows, r.mpdu.ref ≠ sub)
    (htail : ∀ x, (s.node sub).msduTail = some x → ∀ r ∈ (h.view k).rows, x ∉ r.refs)
    (tick : ℕ) :
    ¬Kept s (kiteHold s k pn tick) k pn := by
  obtain ⟨node, s1, halloc⟩ := hrep.nodeAlloc_isSome hbufs
  obtain ⟨hfilled, -⟩ := (hrep.nodeAlloc halloc).fillNode pn tick
  set s2 := kiteFillNode s1 pn node tick with hs2
  have hentry2 : (s2.entry k).toBaCtl = (h.view k).toBaCtl := (hfilled.entry k).ctl
  have hchain2 : (s2.entry k).chain = some sub := by rw [← hchain]; exact congrArg BaCtl.chain hentry2
  obtain ⟨hentry3, houts3⟩ := kiteChain_entry s2 sub node
  have hhold : kiteHold s k pn tick = (kiteChain s2 sub node).setCtl k
      (((kiteChain s2 sub node).entry k).toBaCtl.seen pn 3) := by
    unfold kiteHold
    rw [halloc]
    simp only
    rw [← hs2, hchain2]
  have hnodes : s1.node = s.node := by
    unfold reorderNodeAlloc at halloc
    split at halloc
    · rw [← (Prod.mk.inj (Option.some.inj halloc)).2]
    · split at halloc
      · rw [← (Prod.mk.inj (Option.some.inj halloc)).2]
      · cases halloc
  have htail2 : ∀ x ∈ (h.view k).refs, (s2.node sub).msduTail ≠ some x := by
    intro x hx hlast
    rw [hs2] at hlast
    unfold kiteFillNode BaState.setNode at hlast
    by_cases hsub : sub = node
    · simp only [hsub, Function.update_self, reduceCtorEq] at hlast
    · simp only [Function.update_of_ne hsub, hnodes] at hlast
      obtain ⟨r, hr, hxr⟩ := List.mem_flatMap.mp hx
      exact htail x hlast r hr hxr
  -- the list is as it was before
  have hlist : EntryRep (kiteHold s k pn tick).node ((kiteHold s k pn tick).entry k)
      ((h.view k).setCtl (((kiteChain s2 sub node).entry k).toBaCtl.seen pn 3)) := by
    obtain ⟨-, hlist, hcount, hrows⟩ := hfilled.entry k
    have hnew : ∀ x ∈ (h.view k).refs, x ≠ node := by
      rintro x hx rfl
      exact hfilled.not_held_of_hand (Multiset.mem_cons_self ..) hx
    have hcell : ∀ x ∈ (h.view k).refs,
        SameCell (s2.node x) ((kiteHold s k pn tick).node x) := by
      intro x hx
      rw [hhold]
      exact kiteChain_cell (hnew x hx) (htail2 x hx)
    have hentry : (kiteHold s k pn tick).entry k =
        { s2.entry k with toBaCtl := ((kiteChain s2 sub node).entry k).toBaCtl.seen pn 3 } := by
      rw [hhold]
      unfold BaState.setCtl
      rw [setEntry_self, hentry3]
    rw [hentry]
    refine ⟨rfl, ?_, hcount, ?_⟩
    · refine hlist.congr fun x hx => ?_
      obtain ⟨r, hr, rfl⟩ := List.mem_map.mp hx
      exact (hcell _ (View.mem_refs hr r.mem_refs_mpdu)).next
    · intro r hr
      refine (hrows r hr).congr_cells (fun c hc => ?_) ?_
      · exact hcell _ (View.mem_refs hr (List.mem_map_of_mem hc))
      · have hmem := View.mem_refs hr r.mem_refs_mpdu
        rw [hhold]
        exact kiteChain_other (hout r hr) (hnew _ hmem) (htail2 _ hmem)
  have houts : (kiteHold s k pn tick).outs = s.outs := by
    rw [hhold]
    show (kiteChain s2 sub node).outs = s.outs
    rw [houts3, hfilled.outs, hrep.outs]
  rintro (⟨rest, heq⟩ | ⟨x, hx, hnot, -⟩ | ⟨m, -, -, heq⟩)
  · rw [houts] at heq
    simp at heq
  · rw [hlist.heldNode_iff] at hx
    rw [(hrep.entry k).heldNode_iff] at hnot
    exact hnot hx
  · rw [houts] at heq
    simp at heq

theorem Rep.kept_inOrder (hrep : Rep s h hand) : Kept s (kiteInOrder s k pn) k pn := by
  have hband : (s.entry k).band = (h.view k).band := congrArg BaCtl.band (hrep.entry k).ctl
  have hend : Rep (kiteInOrder s k pn) _ _ := hrep.inOrder
  refine .delivered (if pn.amsdu ≤ 1 then (h.view k).moveLast k pn.sn else ⟨h.view k, []⟩).outs ?_
  rw [hend.outs, hrep.outs, hband]
  rfl

/-- A frame next in line or inside the window is kept, unless it is
    chained to a node outside of the list. -/
theorem Rep.kept_iff {flags : RxFlags} {band : ℕ} (hrep : Rep s h hand)
    (hbufs : (heldNodes h + hand).card ≤ 5600)
    (hchain : ∀ sub, (h.view k).chain = some sub → ChainNode s.node (h.view k).rows sub)
    (hst : st = .inOrder ∨ st = .inside) :
    Kept s (kiteTake s k flags pn band st) k pn ↔
      st = .inOrder ∨
        ∀ sub, (h.view k).chain = some sub → ∃ r ∈ (h.view k).rows, r.mpdu.ref = sub := by
  rcases hst with rfl | rfl
  · exact iff_of_true hrep.kept_inOrder (.inl rfl)
  · show Kept s (kiteHold s k pn flags.tick) k pn ↔ _
    rw [or_iff_right (by decide)]
    cases hsub : (h.view k).chain with
    | none =>
      refine iff_of_true (hrep.kept_insert hbufs hsub _) ?_
      rintro sub ⟨⟩
    | some sub =>
      constructor
      · rintro hkept _ ⟨⟩
        rcases hchain sub hsub with hheld | ⟨hout, htail⟩
        · exact hheld
        · exact absurd hkept (hrep.not_kept hbufs hsub hout htail _)
      · intro hheld
        obtain ⟨r, hr, rfl⟩ := hheld sub rfl
        exact hrep.kept_chain hbufs hr hsub _

/-! ## The whole loop -/

theorem card_heldNodes_set {m : Move} (hsub : m.view.rows.Sublist (h.view k).rows) :
    (heldNodes (h.set k m)).card ≤ (heldNodes h).card := by
  have hcard := congrArg Multiset.card (heldNodes_set h k m)
  have hlen := (hsub.flatMap Row.refs).length_le
  simp only [Multiset.card_add, Multiset.coe_card] at hcard
  unfold View.refs at hcard
  omega

theorem View.InOrder.not_heldAt {v : View} {hi : ℕ} (h : v.InOrder hi) :
    ¬HeldAt v.last v.rows 1 := by
  rintro ⟨r, hr, hd⟩
  have := (h.ahead r hr).1
  omega

/-- Inside the window no pass is made. -/
theorem chainKeeps_near {v : View} (h : v.InOrder v.win) (hpos : 1 ≤ ahead v.last sn)
    (hle : ahead v.last sn ≤ v.win) :
    v.ChainKeeps sn ↔ ahead v.last sn = 1 ∨
      ∀ sub, v.chain = some sub → ∃ r ∈ v.rows, r.mpdu.ref = sub := by
  have hover : overshoot v sn = 0 := by
    unfold overshoot
    omega
  unfold View.ChainKeeps
  rw [hover]
  constructor
  · intro hkeeps
    by_cases hone : ahead v.last sn = 1
    · exact .inl hone
    · right
      intro sub hsub
      rcases hkeeps sub hsub with hall | ⟨r, hr, href, -⟩
      · exact absurd (hall 1 one_pos (by omega)) h.not_heldAt
      · exact ⟨r, hr, href⟩
  · rintro (hone | hheld) sub hsub
    · left
      intro j hj hlt
      omega
    · obtain ⟨r, hr, href⟩ := hheld sub hsub
      have := (h.ahead r hr).1
      exact .inr ⟨r, hr, href, 1, one_pos, by omega, h.not_heldAt⟩

/-- What one pass leaves of the condition. -/
theorem Slid.chainKeeps {v w : View} {fin : ℕ} (h : Slid v w sn fin) :
    v.ChainKeeps sn ↔ ahead w.last sn = 1 ∨
      ∀ sub, w.chain = some sub → ∃ r ∈ w.rows, r.mpdu.ref = sub := by
  have hnew : ahead w.last sn = ahead v.last sn - fin := by
    rw [← h.stop]
    exact ahead_sub (by rw [h.stop]; exact h.short.le)
  have hshort := h.short
  have hstart := h.start
  unfold View.ChainKeeps
  rw [h.chain, hnew, h.rows]
  constructor
  · intro hkeeps
    by_cases hone : ahead v.last sn - fin = 1
    · exact .inl hone
    · right
      intro sub hsub
      rcases hkeeps sub hsub with hall | ⟨r, hr, href, j, hj, hlt, hgap⟩
      · exact absurd (hall (fin + 1) (by omega) (by omega)) h.gap
      · have hfar : fin < j := by
          by_contra hle
          exact hgap (h.run j hj (by omega))
        exact ⟨r, List.mem_filter.mpr ⟨hr, by simpa using by omega⟩, href⟩
  · rintro (hone | hheld) sub hsub
    · left
      intro j hj hlt
      exact h.run j hj (by omega)
    · right
      obtain ⟨r, hr, href⟩ := hheld sub hsub
      obtain ⟨hmem, hfar⟩ := List.mem_filter.mp hr
      simp only [decide_eq_true_eq] at hfar
      have hne : ahead v.last r.sn ≠ fin + 1 := fun heq => h.gap ⟨r, hmem, heq⟩
      exact ⟨r, hmem, href, fin + 1, by omega, by omega, h.gap⟩

/-- For a frame in the window the loop stops at once, with the frame next
    in line or inside. Only a frame inside that is chained to an MPDU that
    is not held is lost. -/
theorem Rep.stops (flags : RxFlags) (band : ℕ) (hrep : Rep s h hand)
    (hbufs : (heldNodes h + hand).card ≤ 5600)
    (hchain : ∀ sub, (h.view k).chain = some sub → ChainNode s.node (h.view k).rows sub)
    (hlast : (h.view k).last < 4096) (hwin : (h.view k).win ≤ 511) (hsn : pn.sn < 4096)
    (hpos : 1 ≤ ahead (h.view k).last pn.sn) (hnear : ahead (h.view k).last pn.sn ≤ 2047)
    (hle : ahead (h.view k).last pn.sn ≤ (h.view k).win) :
    ∃ st, WindowLoop k pn.sn 0 s s st ∧ (st = .inOrder ∨ st = .inside) ∧
      (Kept s (kiteTake s k flags pn band st) k pn ↔ ahead (h.view k).last pn.sn = 1 ∨
        ∀ sub, (h.view k).chain = some sub → ∃ r ∈ (h.view k).rows, r.mpdu.ref = sub) := by
  have hctl : (s.entry k).toBaCtl = (h.view k).toBaCtl := (hrep.entry k).ctl
  have hstanding := standing_ahead hlast hsn hwin hpos hnear
  by_cases hone : ahead (h.view k).last pn.sn = 1
  · rw [if_pos hone, ← hctl] at hstanding
    refine ⟨.inOrder, .stop hstanding, .inl rfl, ?_⟩
    exact iff_of_true hrep.kept_inOrder (.inl hone)
  · rw [if_neg hone, if_pos hle, ← hctl] at hstanding
    refine ⟨.inside, .stop hstanding, .inr rfl, ?_⟩
    rw [hrep.kept_iff hbufs hchain (.inr rfl), or_iff_right (by decide), or_iff_right hone]

/-- The window loop ends after one pass at most, with the frame next in
    line or inside the window. The frame is kept just when it need not be
    chained to an MPDU that is not held. The nodes in `hand` are those
    lost before. -/
theorem window_keeps_iff {flags : RxFlags} {band : ℕ} (hrep : Rep s h hand)
    (horder : (h.view k).InOrder (h.view k).win)
    (hwin : 1 ≤ (h.view k).win ∧ (h.view k).win ≤ 511)
    (hchain : ∀ sub, (h.view k).chain = some sub → ChainNode s.node (h.view k).rows sub)
    (hbufs : (heldNodes h + hand).card ≤ 5600) (hsn : pn.sn < 4096)
    (hpos : 1 ≤ ahead (h.view k).last pn.sn) (hnear : ahead (h.view k).last pn.sn ≤ 2047) :
    ∃ n t st, n ≤ 1 ∧ WindowLoop k pn.sn n s t st ∧ (st = .inOrder ∨ st = .inside) ∧
      (Kept t (kiteTake t k flags pn band st) k pn ↔ (h.view k).ChainKeeps pn.sn) := by
  have hctl : (s.entry k).toBaCtl = (h.view k).toBaCtl := (hrep.entry k).ctl
  by_cases hle : ahead (h.view k).last pn.sn ≤ (h.view k).win
  · obtain ⟨st, hstop, hst, hkept⟩ := hrep.stops flags band hbufs hchain
      horder.last hwin.2 hsn hpos hnear hle
    exact ⟨0, s, st, by decide, hstop, hst, hkept.trans (chainKeeps_near horder hpos hle).symm⟩
  · obtain ⟨fin, hslid⟩ := slid_once (k := k) horder hwin (by omega) hnear
    have hrep' : Rep (kitePass k pn.sn s) (h.app k (View.slideOnce k pn.sn)) hand :=
      hrep.slideOnce k pn.sn
    set w := ((h.view k).slideOnce k pn.sn).view
    have hview : (h.app k (View.slideOnce k pn.sn)).view k = w := HeldState.app_view_self
    -- after the pass the frame is as far ahead as it is past the run's end
    have hnew : ahead w.last pn.sn = ahead (h.view k).last pn.sn - fin := by
      rw [← hslid.stop]
      exact ahead_sub (by rw [hslid.stop]; exact hslid.short.le)
    have hstart := hslid.start
    have hshort := hslid.short
    unfold overshoot at hstart
    have hcard : (heldNodes (h.app k (View.slideOnce k pn.sn)) + hand).card ≤ 5600 := by
      have hless : (heldNodes (h.app k (View.slideOnce k pn.sn))).card ≤ (heldNodes h).card := by
        apply card_heldNodes_set
        show w.rows.Sublist (h.view k).rows
        rw [hslid.rows]
        exact List.filter_sublist
      rw [Multiset.card_add] at hbufs ⊢
      omega
    have hchain' : ∀ sub, w.chain = some sub →
        ChainNode (kitePass k pn.sn s).node w.rows sub := by
      intro sub hsub
      rw [hslid.chain] at hsub
      exact (hchain sub hsub).pass hrep pn.sn
    have hin : ahead w.last pn.sn ≤ w.win := by
      rw [hslid.win]
      omega
    have hwin' : w.win ≤ 511 := by
      rw [hslid.win]
      exact hwin.2
    rw [← hview] at hchain' hin hwin' hnew hslid
    obtain ⟨st, hstop, hst, hkept⟩ := hrep'.stops flags band hcard hchain' hslid.last hwin' hsn
      (by omega) (by omega) hin
    refine ⟨1, kitePass k pn.sn s, st, le_rfl, .pass ?_ hstop, hst,
      hkept.trans hslid.chainKeeps.symm⟩
    rw [hctl, standing_ahead horder.last hsn hwin.2 hpos hnear, if_neg (by omega), if_neg hle]

/-- A frame 100 ahead in a window of 64. -/
theorem window_keeps_iff_ahead :
    ∃ n t st, n ≤ 1 ∧ WindowLoop key1 200 n window100 t st ∧ (st = .inOrder ∨ st = .inside) ∧
      Kept t (kiteTake t key1 noFlags (subframe 200 0 7) 0 st) key1 (subframe 200 0 7) := by
  have hempty : (heldNodes nothingHeld + 0).card ≤ 5600 := by
    have hheld : heldNodes nothingHeld = 0 := by
      unfold heldNodes
      exact Finset.sum_eq_zero fun _ _ => rfl
    rw [hheld, add_zero, Multiset.card_zero]
    omega
  obtain ⟨n, t, st, hn, hloop, hst, hkept⟩ := @window_keeps_iff window100 nothingHeld 0 key1
    (subframe 200 0 7) noFlags 0 rep_window100
    ⟨by decide, nofun, nofun, .nil⟩ ⟨by decide, by decide⟩ nofun hempty (by decide) (by decide)
    (by decide)
  exact ⟨n, t, st, hn, hloop, hst, hkept.mpr nofun⟩

/-- Three restarts of the peer spread the held numbers over the whole
    number space, the first subframe of an A-MSDU comes last, and a
    timeout releases all of them: the numbers go round and end behind the
    subframe's, and `entry[3]` still names its node. -/
def staleChain : BaState :=
  let s := ((window100.arrives 4088 0 1).arrives 4090 0 2).arrives 2998 0 3
  let s := ((s.arrives 3000 0 4).arrives 1498 0 5).arrives 1500 0 6
  let s := (s.arrives 3 0 7).arrives 5 3 8
  baTimeoutEntry s key1 100 10

/-- The next subframe is inside the window and lost: it is chained to the
    freed node. -/
theorem window_loses :
    let s := kiteBefore staleChain key1 (subframe 5 2 9) 0
    (s.entry key1).head = none ∧ (s.entry key1).win = 64 ∧ (s.entry key1).last = 4090 ∧
      WindowLoop key1 5 0 s s .inside ∧
      ¬Kept s (kiteTake s key1 noFlags (subframe 5 2 9) 0 .inside) key1 (subframe 5 2 9) := by
  intro s
  have hhead : (s.entry key1).head = none := by decide +kernel
  have hhead' : ((kiteTake s key1 noFlags (subframe 5 2 9) 0 .inside).entry key1).head = none := by
    decide +kernel
  have houts : (kiteTake s key1 noFlags (subframe 5 2 9) 0 .inside).outs = s.outs := by
    decide +kernel
  refine ⟨hhead, by decide +kernel, by decide +kernel, .stop (by decide +kernel), ?_⟩
  rintro (⟨rest, heq⟩ | ⟨x, hx, -, -⟩ | ⟨m, hm, -, -⟩)
  · rw [houts] at heq
    simp at heq
  · rcases hx with hx | ⟨r, hr, -⟩
    · rw [hhead'] at hx
      cases hx
    · rw [hhead'] at hr
      cases hr
  · rw [hhead] at hm
    cases hm

end ClankerNPU.Kite
