import ClankerNPU.Kite.Refine

/-! # A frame on the heap and in the view

    The rest of the refinement: a held frame starts a row, joins the row
    of its A-MSDU or is dropped, and with it the whole classifier does to
    the heap what the operations on views do to its entry. -/

open LinkedList Custody

namespace ClankerNPU.Kite

/-! ## One more MSDU -/

/-- What `kiteChain` writes: the MPDU `sub`, the new node, and the node
    that was its last MSDU. -/
structure Chained (s s' : BaState) (sub node : NodeRef) : Prop where
  outs : s'.outs = s.outs
  entry : s'.entry = s.entry
  pri : s'.pri = s.pri
  sec : s'.sec = s.sec
  new : s'.node node = { s.node node with next := none }
  mpdu : ∃ n, s'.node sub = { s.node sub with
    msduCnt := n
    msduHead := if (s.node sub).msduTail = none then some node else (s.node sub).msduHead
    msduTail := some node }
  last : ∀ t, (s.node sub).msduTail = some t → s'.node t = { s.node t with next := some node }
  other : ∀ x, x ≠ sub → x ≠ node → (s.node sub).msduTail ≠ some x → s'.node x = s.node x

theorem kiteChain_chained (s : BaState) {sub node : NodeRef} (hne : sub ≠ node)
    (htail : ∀ t, (s.node sub).msduTail = some t → t ≠ node ∧ t ≠ sub) :
    Chained s (kiteChain s sub node) sub node := by
  cases hlast : (s.node sub).msduTail with
  | none =>
    refine ⟨?_, ?_, ?_, ?_, ?_, ⟨u16 ((s.node sub).msduCnt + 1), ?_⟩, ?_, ?_⟩
    · simp [kiteChain, BaState.setNode, hlast]
    · simp [kiteChain, BaState.setNode, hlast]
    · simp [kiteChain, BaState.setNode, hlast]
    · simp [kiteChain, BaState.setNode, hlast]
    · simp [kiteChain, BaState.setNode, hlast, Function.update_of_ne hne.symm]
    · simp [kiteChain, BaState.setNode, hlast, Function.update_of_ne hne]
    · intro t ht
      rw [hlast] at ht
      cases ht
    · intro x hsub hnode _
      simp [kiteChain, BaState.setNode, hlast, Function.update_of_ne hsub,
        Function.update_of_ne hnode]
  | some t =>
    obtain ⟨htn, hts⟩ := htail t hlast
    refine ⟨?_, ?_, ?_, ?_, ?_, ⟨u16 ((s.node sub).msduCnt + 1), ?_⟩, ?_, ?_⟩
    · simp [kiteChain, BaState.setNode, hlast]
    · simp [kiteChain, BaState.setNode, hlast]
    · simp [kiteChain, BaState.setNode, hlast]
    · simp [kiteChain, BaState.setNode, hlast]
    · simp [kiteChain, BaState.setNode, hlast, Function.update_of_ne hne.symm,
        Function.update_of_ne htn.symm]
    · simp [kiteChain, BaState.setNode, hlast, Function.update_of_ne hne,
        Function.update_of_ne hts.symm]
    · intro t' ht'
      rw [hlast] at ht'
      obtain rfl := Option.some.inj ht'
      simp [kiteChain, BaState.setNode, hlast, Function.update_of_ne hts,
        Function.update_of_ne htn]
    · intro x hsub hnode hx
      have hxt : x ≠ t := fun heq => hx (by rw [heq, hlast])
      simp [kiteChain, BaState.setNode, hlast, Function.update_of_ne hsub,
        Function.update_of_ne hnode, Function.update_of_ne hxt]

section chain

variable {s s' : BaState} {h : HeldState} {hand : Multiset NodeRef} {k : BaKey} {c : Cell} {r : Row}

/-- The row with one more MSDU. -/
def Row.more (r : Row) (c : Cell) : Row := { r with msdus := r.msdus ++ [c] }

/-- The nodes of a row with one more MSDU. -/
theorem Chained.rowRep (hch : Chained s s' r.mpdu.ref c.ref) (hrow : RowRep s.node r)
    (hfresh : Fresh s.node c) (hnodup : r.refs.Nodup) (hout : c.ref ∉ r.refs) :
    RowRep s'.node (r.more c) := by
  obtain ⟨cnt, hmpdu⟩ := hch.mpdu
  have hmne : ∀ d ∈ r.msdus, d.ref ≠ r.mpdu.ref ∧ d.ref ≠ c.ref := by
    intro d hd
    rw [Row.refs_eq] at hnodup hout
    have hmem : d.ref ∈ r.msdus.map (·.ref) := List.mem_map_of_mem hd
    refine ⟨?_, ?_⟩
    · intro heq
      exact (List.nodup_cons.mp hnodup).1 (heq ▸ hmem)
    · intro heq
      exact hout (List.mem_cons_of_mem _ (heq ▸ hmem))
  -- an MSDU of the row at most has its `next` written
  have hmsdu : ∀ d ∈ r.msdus, ∃ n, s'.node d.ref = { s.node d.ref with next := n } := by
    intro d hd
    obtain ⟨hm, hc⟩ := hmne d hd
    by_cases hlast : (s.node r.mpdu.ref).msduTail = some d.ref
    · exact ⟨_, hch.last _ hlast⟩
    · exact ⟨(s.node d.ref).next, hch.other _ hm hc hlast⟩
  refine ⟨?_, ?_, ?_⟩
  · intro d hd
    have hcases : d = r.mpdu ∨ d ∈ r.msdus ∨ d = c := by
      have : d ∈ r.mpdu :: (r.msdus ++ [c]) := hd
      simpa using this
    rcases hcases with rfl | hd | rfl
    · obtain ⟨hf, hi, hp, ht⟩ := hrow.filled r.mpdu List.mem_cons_self
      constructor <;> rw [hmpdu] <;> assumption
    · obtain ⟨n, hn⟩ := hmsdu d hd
      obtain ⟨hf, hi, hp, ht⟩ := hrow.filled d (List.mem_cons_of_mem _ hd)
      constructor <;> rw [hn] <;> assumption
    · obtain ⟨hf, hi, hp, ht⟩ := hfresh.filled
      constructor <;> rw [hch.new] <;> assumption
  · show Linked _ (s'.node r.mpdu.ref).msduHead ((r.msdus ++ [c]).map (·.ref))
    rw [hmpdu, List.map_append]
    have htail := hrow.tail
    have hlinked := hrow.linked
    rcases List.eq_nil_or_concat' r.msdus with hnil | ⟨init, t, hsplit⟩
    · rw [hnil, List.map_nil, List.getLast?_nil] at htail
      rw [hnil]
      simp only [htail, if_true]
      refine ⟨rfl, ?_⟩
      show (s'.node c.ref).next = none
      rw [hch.new]
    · rw [hsplit, List.map_append, List.map_cons, List.map_nil, List.getLast?_concat] at htail
      rw [hsplit, List.map_append, List.map_cons, List.map_nil] at hlinked
      rw [hsplit, List.map_append, List.map_cons, List.map_nil, List.append_assoc]
      simp only [htail, reduceCtorEq, if_false]
      apply hlinked.insert_after
      · show (s'.node t.ref).next = some c.ref
        rw [hch.last _ htail]
      · show (s'.node c.ref).next = (s.node t.ref).next
        rw [hch.new, hlinked.next_last]
      · intro x hx
        rw [List.append_nil] at hx
        obtain ⟨d, hd, rfl⟩ := List.mem_map.mp hx
        have hdm : d ∈ r.msdus := by rw [hsplit]; exact List.mem_append_left _ hd
        obtain ⟨hm, hc⟩ := hmne d hdm
        have hnd : (init.map (·.ref) ++ [t.ref]).Nodup := hlinked.nodup
        have hdt : d.ref ≠ t.ref := by
          intro heq
          exact List.disjoint_of_nodup_append hnd (List.mem_map_of_mem hd)
            (heq ▸ List.mem_singleton_self _)
        rw [hch.other _ hm hc (by rw [htail]; exact fun h => hdt (Option.some.inj h).symm)]
  · show (s'.node r.mpdu.ref).msduTail = ((r.msdus ++ [c]).map (·.ref)).getLast?
    rw [hmpdu, List.map_append, List.map_cons, List.map_nil, List.getLast?_concat]

/-- A node in hand becomes the last MSDU of a row. -/
theorem Rep.chain {before after : List Row} (hrep : Rep s h (c.ref ::ₘ hand))
    (hfresh : Fresh s.node c) (hrows : (h.view k).rows = before ++ r :: after) :
    Rep (kiteChain s r.mpdu.ref c.ref)
      (h.set k ⟨{ h.view k with rows := before ++ r.more c :: after }, []⟩) hand := by
  obtain ⟨hctl, hlist, hcount, hrep'⟩ := hrep.entry k
  have hhand : c.ref ∈ c.ref ::ₘ hand := Multiset.mem_cons_self ..
  have hne : ∀ k', ∀ x ∈ (h.view k').refs, x ≠ c.ref := by
    rintro k' x hx rfl
    exact hrep.not_held_of_hand hhand hx
  obtain ⟨hnodup, hapart⟩ := hrep.row_nodup hrows
  have hrmem : r ∈ (h.view k).rows := by rw [hrows]; simp
  have hrow := hrep' r hrmem
  have hin : ∀ x ∈ r.refs, x ∈ (h.view k).refs := fun x hx => View.mem_refs hrmem hx
  have htailmem : ∀ t, (s.node r.mpdu.ref).msduTail = some t → t ∈ r.msdus.map (·.ref) := by
    intro t ht
    rw [hrow.tail] at ht
    exact List.mem_of_getLast? ht
  -- the last MSDU so far is in the row, so it is not the new node
  have hch : Chained s (kiteChain s r.mpdu.ref c.ref) r.mpdu.ref c.ref := by
    apply kiteChain_chained s (hne k _ (hin _ r.mem_refs_mpdu))
    intro t ht
    have hmem := htailmem t ht
    refine ⟨hne k _ (hin t (List.mem_cons_of_mem _ hmem)), ?_⟩
    rw [Row.refs_eq] at hnodup
    intro heq
    exact (List.nodup_cons.mp hnodup).1 (heq ▸ hmem)
  -- only the row's own nodes and the new one change
  have hsame : ∀ x, x ∉ r.refs → x ≠ c.ref → (kiteChain s r.mpdu.ref c.ref).node x = s.node x := by
    intro x hx hxc
    refine hch.other x ?_ hxc ?_
    · rintro rfl
      exact hx r.mem_refs_mpdu
    · intro ht
      exact hx (List.mem_cons_of_mem _ (htailmem x ht))
  -- the node moves from the hand to the row
  have hnodes : freeNodes s +
      ((View.refs { h.view k with rows := before ++ r.more c :: after } : List NodeRef) :
        Multiset NodeRef) + hand =
      freeNodes s + ((h.view k).refs : Multiset NodeRef) + c.ref ::ₘ hand := by
    have hmore : (r.more c).refs = r.refs ++ [c.ref] := by
      unfold Row.more Row.refs Row.cells
      simp
    unfold View.refs
    simp only [hrows, List.flatMap_append, List.flatMap_cons, hmore, ← Multiset.coe_add,
      Multiset.coe_singleton, ← Multiset.singleton_add]
    abel
  have hfree : freeNodes (kiteChain s r.mpdu.ref c.ref) = freeNodes s := by
    unfold freeNodes
    rw [hch.pri, hch.sec]
  refine hrep.set _ (by rw [hch.outs]; exact (List.append_nil _).symm) ?_
    (fun k' _ => by rw [hch.entry]) ?_ (by rw [hfree]; exact hnodes)
    (by rw [hch.pri]; exact hrep.pri) (by rw [hch.sec]; exact hrep.sec)
  · rw [hch.entry]
    rw [hrows, List.map_append, List.map_cons] at hlist
    refine ⟨hctl, ?_, ?_, ?_⟩
    · show Linked _ (s.entry k).head ((before ++ r.more c :: after).map (·.mpdu.ref))
      rw [List.map_append, List.map_cons]
      -- the list runs through the first nodes of the rows, and the new node
      -- is none of them
      refine hlist.congr fun x hx => ?_
      have hcases : x = r.mpdu.ref ∨ ∃ r' ∈ before ++ after, x = r'.mpdu.ref := by
        simp only [List.mem_append, List.mem_cons, List.mem_map] at hx ⊢
        rcases hx with ⟨r', hr', rfl⟩ | rfl | ⟨r', hr', rfl⟩
        · exact .inr ⟨r', .inl hr', rfl⟩
        · exact .inl rfl
        · exact .inr ⟨r', .inr hr', rfl⟩
      rcases hcases with rfl | ⟨r', hr', rfl⟩
      · obtain ⟨n, hn⟩ := hch.mpdu
        rw [hn]
      · have hmem : r' ∈ (h.view k).rows := by
          rw [hrows]
          simp only [List.mem_append, List.mem_cons] at hr' ⊢
          tauto
        rw [hsame _ (hapart r' hr' _ r'.mem_refs_mpdu)
          (hne k _ (View.mem_refs hmem r'.mem_refs_mpdu))]
    · show (s.entry k).count = (before ++ r.more c :: after).length
      rw [hcount, hrows]
      simp
    · intro r' hr'
      have hcases : r' = r.more c ∨ r' ∈ before ++ after := by
        have hmem : r' ∈ before ++ r.more c :: after := hr'
        simp only [List.mem_append, List.mem_cons] at hmem ⊢
        tauto
      rcases hcases with rfl | hr'
      · exact hch.rowRep hrow hfresh hnodup fun hmem => hne k _ (hin _ hmem) rfl
      · have hmem : r' ∈ (h.view k).rows := by
          rw [hrows]
          simp only [List.mem_append, List.mem_cons] at hr' ⊢
          tauto
        exact (hrep' r' hmem).congr fun x hx =>
          hsame x (hapart r' hr' x hx) (hne k x (View.mem_refs hmem hx))
  · intro k' hk x hx
    exact hsame x (fun hmem => hrep.not_held_of_ne hk (hin x hmem) hx) (hne k' x hx)

end chain

/-! ## Holding -/

section hold

variable {s s' : BaState} {h : HeldState} {hand : Multiset NodeRef} {k : BaKey} {node : NodeRef}

/-- Filling a node in hand. -/
theorem Rep.fillNode (hrep : Rep s h (node ::ₘ hand)) (pn : KiteFrame) (tick : ℕ) :
    Rep (kiteFillNode s pn node tick) h (node ::ₘ hand) ∧
      Fresh (kiteFillNode s pn node tick).node ⟨node, pn, tick⟩ := by
  refine ⟨hrep.setNode (Multiset.mem_cons_self ..) _, ?_⟩
  have hself : (kiteFillNode s pn node tick).node node = {
      toKiteFrame := pn
      next := none
      msduHead := none
      msduTail := none
      msduCnt := (s.node node).msduCnt
      idx := node.idx
      pool := node.pool
      tick := tick } := Function.update_self ..
  refine ⟨⟨?_, ?_, ?_, ?_⟩, ?_, ?_⟩ <;> simp only [hself]

/-- A node in hand becomes a row of its own, or goes back. -/
theorem Rep.insert {pn : KiteFrame} {tick : ℕ} (hrep : Rep s h (node ::ₘ hand))
    (hfresh : Fresh s.node ⟨node, pn, tick⟩) :
    Rep (kiteInsert s k pn node) (h.app k (View.insert ⟨node, pn, tick⟩)) hand := by
  obtain ⟨hctl, hlist, hcount, hrows⟩ := hrep.entry k
  have hplace : kiteFindPlace s pn.sn nodeFuel none (s.entry k).head =
      (((h.view k).before pn.sn).getLast?.map (·.mpdu.ref),
        ((h.view k).after pn.sn).head?.map (·.mpdu.ref)) := by
    rw [findPlace_eq hlist hrows (by have := hrep.length_rows_lt k; omega), Option.or_none]
    rfl
  have hsplit : (h.view k).rows = (h.view k).before pn.sn ++ (h.view k).after pn.sn :=
    List.takeWhile_append_dropWhile.symm
  have hsn : (((h.view k).after pn.sn).head?.map (·.mpdu.ref)).map (fun cur => (s.node cur).sn) =
      ((h.view k).after pn.sn).head?.map Row.sn := by
    cases hafter : ((h.view k).after pn.sn).head? with
    | none => rfl
    | some r =>
      have hmem : r ∈ (h.view k).rows := by
        rw [hsplit]
        exact List.mem_append_right _ (List.mem_of_head? hafter)
      have hframe := ((hrows r hmem).filled r.mpdu List.mem_cons_self).frame
      exact congrArg some (congrArg KiteFrame.sn hframe)
  unfold kiteInsert HeldState.app View.insert
  simp only [hplace, hsn]
  by_cases hheld : ((h.view k).after pn.sn).head?.map Row.sn = some pn.sn
  · rw [if_pos hheld, if_pos hheld]
    have hband : (s.entry k).band = (h.view k).band := congrArg BaCtl.band hctl
    rw [hband]
    exact hrep.nodeFree.emit k _
  · rw [if_neg hheld, if_neg hheld]
    exact hrep.link hfresh hsplit

/-- The chained MPDU of a view is one of its rows. -/
def View.Chains (v : View) : Prop :=
  ∀ sub, v.chain = some sub → ∃ before r after, v.rows = before ++ r :: after ∧ r.mpdu.ref = sub

/-- The row of `sub` gets the MSDU, no other. -/
theorem chainTo_eq {v : View} {c : Cell} {r : Row} {before after : List Row}
    (hrows : v.rows = before ++ r :: after) (hnodup : v.refs.Nodup) :
    v.chainTo r.mpdu.ref c = { v with rows := before ++ r.more c :: after } := by
  have hother : ∀ r' ∈ before ++ after, r'.mpdu.ref ≠ r.mpdu.ref := by
    intro r' hr' heq
    have hperm : (v.rows.flatMap Row.refs).Perm (r.refs ++ (before ++ after).flatMap Row.refs) := by
      rw [hrows]
      exact List.perm_middle.flatMap_right _
    have hnd : (v.rows.flatMap Row.refs).Nodup := hnodup
    rw [hperm.nodup_iff] at hnd
    refine List.disjoint_of_nodup_append hnd r.mem_refs_mpdu ?_
    rw [← heq]
    exact List.mem_flatMap.mpr ⟨r', hr', r'.mem_refs_mpdu⟩
  have hkeep : ∀ l : List Row, (∀ r' ∈ l, r'.mpdu.ref ≠ r.mpdu.ref) →
      l.map (fun r' => if r'.mpdu.ref = r.mpdu.ref then { r' with msdus := r'.msdus ++ [c] }
        else r') = l := by
    intro l hl
    calc l.map _ = l.map id := List.map_congr_left fun r' hr' => if_neg (hl r' hr')
      _ = l := List.map_id l
  unfold View.chainTo
  rw [hrows, List.map_append, List.map_cons, if_pos rfl,
    hkeep before fun r' hr' => hother r' (List.mem_append_left _ hr'),
    hkeep after fun r' hr' => hother r' (List.mem_append_right _ hr')]
  rfl

/-- `kiteHold` with the node the pools have. -/
theorem Rep.hold {pn : KiteFrame} (hrep : Rep s h hand) (hchains : (h.view k).Chains)
    (tick : ℕ) :
    Rep (kiteHold s k pn tick)
      (h.app k (View.hold ((reorderNodeAlloc s).map Prod.fst) pn tick)) hand := by
  unfold kiteHold HeldState.app View.hold
  cases halloc : reorderNodeAlloc s with
  | none =>
    simp only [Option.map_none, HeldState.set_same]
    exact hrep
  | some x =>
    obtain ⟨node, s1⟩ := x
    simp only [Option.map_some]
    obtain ⟨hfilled, hfresh⟩ := (hrep.nodeAlloc halloc).fillNode pn tick
    set s2 := kiteFillNode s1 pn node tick with hs2
    have hchain : (s2.entry k).chain = (h.view k).chain :=
      congrArg BaCtl.chain (hfilled.entry k).ctl
    rw [hchain]
    cases hsub : (h.view k).chain with
    | none =>
      simp only
      have hins := hfilled.insert (k := k) hfresh
      have hend := hins.setCtl k
        (((h.app k (View.insert ⟨node, pn, tick⟩)).view k).toBaCtl.seen pn 3)
      rw [(hins.entry k).ctl]
      unfold HeldState.app at hend ⊢
      simp only [HeldState.set_view_self, HeldState.set_set, List.append_nil] at hend ⊢
      exact hend
    | some sub =>
      simp only
      obtain ⟨before, r, after, hrows, rfl⟩ := hchains sub hsub
      have hmore := hfilled.chain hfresh hrows
      rw [← chainTo_eq hrows (hrep.nodup_refs k)] at hmore
      have hend := hmore.setCtl k
        (((h.view k).chainTo r.mpdu.ref ⟨node, pn, tick⟩).toBaCtl.seen pn 3)
      rw [(hmore.entry k).ctl]
      simp only [HeldState.set_view_self, HeldState.set_set, List.append_nil] at hend ⊢
      exact hend

end hold

/-! ## The branches -/

section take

variable {s : BaState} {h : HeldState} {hand : Multiset NodeRef} {k : BaKey} {pn : KiteFrame}
  {band : ℕ}

theorem Rep.duplicate (hrep : Rep s h hand) (fast : Bool) :
    Rep (kiteDuplicate s k fast pn band) (h.app k (View.duplicate k fast pn band)) hand := by
  have hemit := hrep.emit k (if fast then bridgeOut k pn band pn.bss else .free band pn.bufId)
  have hend := hemit.setCtl k ((h.view k).seen pn 1)
  unfold kiteDuplicate HeldState.app View.duplicate
  simp only
  rw [(hemit.entry k).ctl]
  simp only [HeldState.set_view_self, HeldState.set_set, List.append_nil] at hend ⊢
  exact hend

theorem Rep.behind (hrep : Rep s h hand) (fast : Bool) :
    Rep (kiteBehind s k fast pn band) (h.app k (View.behind k fast pn band)) hand := by
  have hseen := hrep.setCtl k ((h.view k).seen pn 2)
  unfold kiteBehind HeldState.app View.behind
  simp only [(hrep.entry k).ctl]
  by_cases hrestart : peerRestarted (h.view k).win (h.view k).last pn.sn
  · simp only [if_pos hrestart]
    have hemit := hseen.emit k (bridgeOut k pn band pn.bss)
    have hend := hemit.setCtl k { (h.view k).seen pn 2 with last := pn.sn }
    rw [(hemit.entry k).ctl]
    simp only [HeldState.set_view_self, HeldState.set_set, List.append_nil] at hend ⊢
    exact hend
  · simp only [if_neg hrestart]
    have hend := hseen.emit k (if fast then bridgeOut k pn band pn.bss else .free band pn.bufId)
    simp only [HeldState.set_view_self, HeldState.set_set] at hend
    exact hend

theorem Rep.inOrder (hrep : Rep s h hand) :
    Rep (kiteInOrder s k pn) (h.app k (View.inOrder k pn)) hand := by
  have hband : (s.entry k).band = (h.view k).band := congrArg BaCtl.band (hrep.entry k).ctl
  have hemit := hrep.emit k (bridgeOut k pn (h.view k).band pn.bss)
  unfold kiteInOrder HeldState.app View.inOrder
  simp only [hband]
  by_cases hlast : pn.amsdu ≤ 1
  · simp only [if_pos hlast]
    have hmove := hemit.moveLast k pn.sn
    have hend := hmove.setCtl k
      ((((h.set k ⟨h.view k, [bridgeOut k pn (h.view k).band pn.bss]⟩).app k
        (View.moveLast k pn.sn)).view k).toBaCtl.seen pn 0)
    rw [(hmove.entry k).ctl]
    unfold HeldState.app at hend ⊢
    simp only [HeldState.set_view_self, HeldState.set_set, List.append_nil,
      List.singleton_append] at hend ⊢
    exact hend
  · simp only [if_neg hlast]
    have hend := hemit.setCtl k ((h.view k).seen pn 0)
    rw [(hemit.entry k).ctl]
    simp only [HeldState.set_view_self, HeldState.set_set, List.append_nil] at hend ⊢
    exact hend

/-- The four branches. -/
theorem Rep.take (hrep : Rep s h hand) (hchains : (h.view k).Chains) (flags : RxFlags)
    (pn : KiteFrame) (band : ℕ) (st : Standing) :
    Rep (kiteTake s k flags pn band st)
      (h.app k (View.take k flags ((reorderNodeAlloc s).map Prod.fst) pn band st)) hand := by
  cases st with
  | inOrder => exact hrep.inOrder
  | duplicate => exact hrep.duplicate flags.fast
  | behind => exact hrep.behind flags.fast
  | inside => exact hrep.hold hchains flags.tick

/-- The branches leave the entry's state as it is. -/
theorem View.take_state (v : View) (flags : RxFlags) (fresh : Option NodeRef) (band : ℕ)
    (st : Standing) : (View.take k flags fresh pn band st v).view.state = v.state := by
  cases st with
  | inOrder =>
    show (v.inOrder k pn).view.state = v.state
    unfold View.inOrder
    split <;> rfl
  | duplicate => rfl
  | behind =>
    show (v.behind k flags.fast pn band).view.state = v.state
    unfold View.behind
    split <;> rfl
  | inside =>
    show (v.hold fresh pn flags.tick).view.state = v.state
    unfold View.hold View.insert
    repeat' split
    all_goals rfl

end take

end ClankerNPU.Kite
