import ClankerNPU.Kite.Keeps

/-! # Releases and holds on the heap

    Whatever an operation does besides holding its frame comes down to a
    few small steps on one entry. A hold links its node in, chains it to a
    held MPDU or, when `entry[3]` names no held MPDU, loses it. The lost
    nodes are in no list and in no pool; of them, and of what may be
    chained, `Chaining` says what any run keeps. -/

open LinkedList

namespace ClankerNPU.Kite

/-- A node that was handed out and is in neither ring. -/
def InUse (s : BaState) (x : NodeRef) : Prop := x ∈ allNodes ∧ x ∉ freeNodes s

variable {s t u : BaState} {h h' h'' : HeldState} {hand : Multiset NodeRef} {k : BaKey}
  {x : NodeRef} {pn : KiteFrame} {flags : RxFlags} {band : ℕ}

theorem Rep.inUse_iff (hrep : Rep s h hand) : InUse s x ↔ x ∈ heldNodes h + hand := by
  have hnodup := hrep.nodup
  unfold InUse
  rw [← hrep.nodes, add_assoc]
  rw [add_assoc, Multiset.nodup_add] at hnodup
  obtain ⟨-, -, hdisj⟩ := hnodup
  constructor
  · rintro ⟨hall, hfree⟩
    exact (Multiset.mem_add.mp hall).resolve_left hfree
  · intro hx
    exact ⟨Multiset.mem_add.mpr (.inr hx), fun hfree => Multiset.disjoint_left.mp hdisj hfree hx⟩

theorem Rep.inUse_of_refs (hrep : Rep s h hand) (hx : x ∈ (h.view k).refs) : InUse s x :=
  hrep.inUse_iff.mpr (Multiset.mem_add.mpr (.inl (mem_heldNodes.mpr ⟨k, hx⟩)))

theorem Rep.free_le (hrep : Rep s h hand) : freeNodes s ≤ allNodes := by
  rw [← hrep.nodes, add_assoc]
  exact Multiset.le_add_right _ _

/-- A node in use has room in its ring. -/
theorem Rep.free_cons (hrep : Rep s h hand) (hx : InUse s x) :
    freeNodes (reorderNodeFree s x.idx x.pool) = x ::ₘ freeNodes s :=
  (free_of_le hrep.pri hrep.sec
    ((Multiset.cons_le_of_notMem hx.2).mpr ⟨hx.1, hrep.free_le⟩)).2.2

/-! ## Releases -/

/-- What the operations on entry `k` come down to, but for holding a frame:
    they write its words and start no chain, they record what leaves, and
    they release its first MPDU. -/
inductive Sheds (k : BaKey) (s : BaState) : BaState → Prop
  | refl : Sheds k s s
  | ctl {t : BaState} (c : BaCtl) : Sheds k s t →
      (c.chain = none ∨ c.chain = (t.entry k).chain) → Sheds k s (t.setCtl k c)
  | emit {t : BaState} (o : Out) : Sheds k s t → Sheds k s (t.emit o)
  | head {t : BaState} {mpdu : NodeRef} (c : BaCtl) (band : ℕ) : Sheds k s t →
      (t.entry k).head = some mpdu → c.chain = (t.entry k).chain →
        Sheds k s (baReleaseMpdu ((baPopMpdu t k mpdu).setCtl k c) k mpdu band)

theorem Sheds.trans (hst : Sheds k s t) (htu : Sheds k t u) : Sheds k s u := by
  induction htu with
  | refl => exact hst
  | ctl c _ hc ih => exact .ctl c ih hc
  | emit o _ ih => exact .emit o ih
  | head c band _ hhead hc ih => exact .head c band ih hhead hc

theorem setCtl_same (s : BaState) (k : BaKey) : s.setCtl k (s.entry k).toBaCtl = s := by
  unfold BaState.setCtl BaState.setEntry
  rw [Function.update_eq_self]

/-- The first MPDU is released and no word written. -/
theorem Sheds.first {mpdu : NodeRef} (band : ℕ) (hhead : (s.entry k).head = some mpdu) :
    Sheds k s (baReleaseMpdu (baPopMpdu s k mpdu) k mpdu band) := by
  have hctl : ((baPopMpdu s k mpdu).entry k).chain = (s.entry k).chain := by
    unfold baPopMpdu
    rw [setEntry_self]
  have hend := Sheds.head ((baPopMpdu s k mpdu).entry k).toBaCtl band .refl hhead hctl
  rw [setCtl_same] at hend
  exact hend

theorem Sheds.write (c : BaCtl) (hc : c.chain = none ∨ c.chain = (s.entry k).chain) :
    Sheds k s (s.setCtl k c) := .ctl c .refl hc

theorem sheds_indicate (s : BaState) (k : BaKey) (seq : ℕ) :
    Sheds k s (baIndicateLeSeq s k seq) := by
  have hloop : ∀ band fuel (s : BaState), Sheds k s (baIndicateLoop k band seq fuel s) := by
    intro band fuel
    induction fuel with
    | zero => exact fun s => .refl
    | succ fuel ih =>
      intro s
      unfold baIndicateLoop
      split
      · exact .refl
      · next mpdu hhead =>
        split
        · exact .refl
        · exact (Sheds.first band hhead).trans (ih _)
  exact hloop _ _ s

theorem sheds_scan (s : BaState) (k : BaKey) (seq : ℕ) : Sheds k s (baSeqScan s k seq).1 := by
  have hloop : ∀ band fuel (s : BaState) seq last,
      Sheds k s (baScanLoop k band fuel s seq last).1 := by
    intro band fuel
    induction fuel with
    | zero => exact fun s _ _ => .refl
    | succ fuel ih =>
      intro s seq last
      unfold baScanLoop
      split
      · exact .refl
      · next mpdu hhead =>
        dsimp only
        split
        · exact (Sheds.first band hhead).trans (ih _ _ _)
        · exact .refl
  exact hloop _ _ s _ _

theorem sheds_moveLast (s : BaState) (k : BaKey) (seq : ℕ) :
    Sheds k s (baMoveLast s k seq) := by
  have hscan := (Sheds.write (s := s) (k := k) { (s.entry k).toBaCtl with last := seq }
    (.inr rfl)).trans (sheds_scan _ k seq)
  unfold baMoveLast
  dsimp only
  split
  · exact hscan
  · exact .ctl _ hscan (.inr rfl)

theorem sheds_flush (s : BaState) (k : BaKey) : Sheds k s (baFlushEntry s k) := by
  have hloop : ∀ band fuel (s : BaState), Sheds k s (baFlushLoop k band fuel s) := by
    intro band fuel
    induction fuel with
    | zero => exact fun s => .refl
    | succ fuel ih =>
      intro s
      unfold baFlushLoop
      split
      · exact .refl
      · next mpdu hhead =>
        dsimp only
        refine (Sheds.head _ band .refl hhead ?_).trans (ih _)
        unfold baPopMpdu
        rw [setEntry_self]
  exact .ctl _ (hloop _ _ s) (.inl rfl)

theorem sheds_stateUpdate (s : BaState) (k : BaKey) (sn checkType : ℕ) :
    Sheds k s (baStateUpdate s k sn checkType) := by
  have hwrite : Sheds k s (s.setCtl k { (s.entry k).toBaCtl with chain := none }) :=
    .write _ (.inl rfl)
  unfold baStateUpdate
  dsimp only
  split
  · exact .refl
  · split
    · exact hwrite
    · exact hwrite.trans (sheds_moveLast _ k _)

theorem sheds_advance (s : BaState) (k : BaKey) (seq : ℕ) :
    Sheds k s (baMoveLast (baIndicateLeSeq s k seq) k seq) :=
  (sheds_indicate s k seq).trans (sheds_moveLast _ k seq)

theorem sheds_timeout (s : BaState) (k : BaKey) (now limit : ℕ) :
    Sheds k s (baTimeoutEntry s k now limit) := by
  have hloop : ∀ fuel (s : BaState), Sheds k s (baTimeoutLoop k now limit fuel s) := by
    intro fuel
    induction fuel with
    | zero => exact fun s => .refl
    | succ fuel ih =>
      intro s
      unfold baTimeoutLoop
      split
      · exact .refl
      · split
        · exact (sheds_advance s k _).trans (ih _)
        · exact .refl
  exact hloop _ s

theorem sheds_slide (s : BaState) (k : BaKey) (sn fuel : ℕ) :
    Sheds k s (kiteSlide k sn fuel s).1 := by
  induction fuel generalizing s with
  | zero => exact .refl
  | succ fuel ih =>
    unfold kiteSlide
    split
    · exact .refl
    · refine Sheds.trans ?_ (ih _)
      exact .ctl _ (sheds_advance s k _) (.inr rfl)

/-- All that comes before the four branches. -/
theorem sheds_arrival (s : BaState) (k : BaKey) (pn : KiteFrame) (band : ℕ) :
    Sheds k s (kiteArrival s k pn band).1 := by
  have hopen : Sheds k s (if (s.entry k).state = 3 then kiteOpenWindow s k pn else s) := by
    split
    · exact .ctl _ (sheds_flush s k) (.inr rfl)
    · exact .refl
  have hbefore : Sheds k s (kiteBefore s k pn band) := by
    refine Sheds.trans ?_ (sheds_stateUpdate _ k pn.sn pn.amsdu)
    exact .ctl _ hopen (.inr rfl)
  exact hbefore.trans (sheds_slide _ k pn.sn nodeFuel)

theorem chain_seen (c : BaCtl) (pn : KiteFrame) (flag : ℕ) :
    (c.seen pn flag).chain = none ∨ (c.seen pn flag).chain = c.chain := by
  unfold BaCtl.seen
  dsimp only
  split
  · exact .inl rfl
  · exact .inr rfl

theorem sheds_inOrder (s : BaState) (k : BaKey) (pn : KiteFrame) :
    Sheds k s (kiteInOrder s k pn) := by
  have hemit : Sheds k s (s.emit (bridgeOut k pn (s.entry k).band pn.bss)) := .emit _ .refl
  unfold kiteInOrder
  dsimp only
  split
  · exact .ctl _ (hemit.trans (sheds_moveLast _ k pn.sn)) (chain_seen ..)
  · exact .ctl _ hemit (chain_seen ..)

theorem sheds_behind (s : BaState) (k : BaKey) (fast : Bool) (pn : KiteFrame) (band : ℕ) :
    Sheds k s (kiteBehind s k fast pn band) := by
  have hseen : Sheds k s (s.setCtl k ((s.entry k).toBaCtl.seen pn 2)) :=
    .write _ (chain_seen ..)
  unfold kiteBehind
  dsimp only
  split
  · exact .ctl _ (.emit _ hseen) (.inr rfl)
  · exact .emit _ hseen

theorem sheds_bar (s : BaState) (k : BaKey) (ssn : ℕ) : Sheds k s (npuSetBarInfo s k ssn) := by
  have hupdate := sheds_stateUpdate s k ssn 3
  unfold npuSetBarInfo
  dsimp only
  split
  · exact hupdate.trans (sheds_advance _ k _)
  · exact hupdate

theorem sheds_setBa (s : BaState) (k : BaKey) (band winSize ssn : ℕ) :
    Sheds k s (npuSetBaEntry s k band winSize ssn) := by
  have hflush := sheds_flush s k
  unfold npuSetBaEntry
  dsimp only
  split
  · exact .ctl _ hflush (.inr rfl)
  · exact .ctl _ hflush (.inr rfl)

/-! ## What a release leaves -/

/-- Releases write neither the frames of the nodes nor, but to clear them,
    their last MSDUs, and an MPDU that leaves its list has no MSDU left. -/
structure Released (s t : BaState) (h h' : HeldState) : Prop where
  frames : ∀ x, (t.node x).toKiteFrame = (s.node x).toKiteFrame
  tails : ∀ x, (t.node x).msduTail = (s.node x).msduTail ∨ (t.node x).msduTail = none
  mpdus : ∀ k, ∀ r ∈ (h.view k).rows, r ∈ (h'.view k).rows ∨ (t.node r.mpdu.ref).msduTail = none
  refs : ∀ k, ∀ x ∈ (h'.view k).refs, x ∈ (h.view k).refs
  chain : ∀ k, (h'.view k).chain = none ∨ (h'.view k).chain = (h.view k).chain

theorem Released.refl (s : BaState) (h : HeldState) : Released s s h h :=
  ⟨fun _ => rfl, fun _ => .inl rfl, fun _ _ hr => .inl hr, fun _ _ hx => hx, fun _ => .inr rfl⟩

theorem Released.trans (hst : Released s t h h') (htu : Released t u h' h'') :
    Released s u h h'' where
  frames x := (htu.frames x).trans (hst.frames x)
  tails x := by
    rcases htu.tails x with heq | hnone
    · rw [heq]
      exact hst.tails x
    · exact .inr hnone
  mpdus k r hr := by
    rcases hst.mpdus k r hr with hr' | hnone
    · exact htu.mpdus k r hr'
    · right
      rcases htu.tails r.mpdu.ref with heq | hnone'
      · exact heq.trans hnone
      · exact hnone'
  refs k x hx := hst.refs k x (htu.refs k x hx)
  chain k := by
    rcases htu.chain k with hnone | heq
    · exact .inl hnone
    · rw [heq]
      exact hst.chain k

/-- Writing words and recording what leaves. -/
theorem released_same {m : Move} (hnode : t.node = s.node) (hrows : m.view.rows = (h.view k).rows)
    (hchain : m.view.chain = none ∨ m.view.chain = (h.view k).chain) :
    Released s t h (h.set k m) := by
  have hview : ∀ k', (h.set k m).view k' = m.view ∧ k' = k ∨ (h.set k m).view k' = h.view k' := by
    intro k'
    by_cases hk : k' = k
    · subst hk
      exact .inl ⟨HeldState.set_view_self, rfl⟩
    · exact .inr (HeldState.set_view_of_ne hk)
  refine ⟨fun x => by rw [hnode], fun x => .inl (by rw [hnode]), ?_, ?_, ?_⟩
  · intro k' r hr
    left
    rcases hview k' with ⟨heq, rfl⟩ | heq
    · rw [heq, hrows]
      exact hr
    · rw [heq]
      exact hr
  · intro k' x hx
    rcases hview k' with ⟨heq, rfl⟩ | heq
    · rw [heq, View.refs, hrows] at hx
      exact hx
    · rw [heq] at hx
      exact hx
  · intro k'
    rcases hview k' with ⟨heq, rfl⟩ | heq
    · rw [heq]
      exact hchain
    · exact .inr (by rw [heq])

theorem releaseMsdus_frame {mpdu : NodeRef} (band fuel : ℕ) (s : BaState) (x : NodeRef) :
    ((baReleaseMsdus k mpdu band fuel s).node x).toKiteFrame = (s.node x).toKiteFrame := by
  induction fuel generalizing s with
  | zero => rfl
  | succ fuel ih =>
    unfold baReleaseMsdus
    split
    · rfl
    · rw [ih]
      unfold reorderNodeFree BaState.emit BaState.setNode
      by_cases hx : x = mpdu
      · subst hx
        split <;> simp only [Function.update_self]
      · split <;> simp only [Function.update_of_ne hx]

theorem releaseMpdu_frame {mpdu : NodeRef} (band : ℕ) (s : BaState) (x : NodeRef) :
    ((baReleaseMpdu s k mpdu band).node x).toKiteFrame = (s.node x).toKiteFrame := by
  rw [releaseMpdu_node, releaseMsdus_frame]
  rfl

/-- The first MPDU leaves. -/
theorem Rep.release {mpdu : NodeRef} (hrep : Rep s h hand) (hhead : (s.entry k).head = some mpdu)
    {c : BaCtl} (hc : c.chain = (s.entry k).chain) (band : ℕ) :
    ∃ h', Rep (baReleaseMpdu ((baPopMpdu s k mpdu).setCtl k c) k mpdu band) h' hand ∧
      Released s (baReleaseMpdu ((baPopMpdu s k mpdu).setCtl k c) k mpdu band) h h' := by
  have hhead' := hhead
  rw [hrep.head_eq] at hhead'
  obtain ⟨r, hr, rfl⟩ := Option.map_eq_some_iff.mp hhead'
  obtain ⟨rows, hrows⟩ : ∃ rows, (h.view k).rows = r :: rows := by
    cases hlist : (h.view k).rows with
    | nil =>
      rw [hlist] at hr
      cases hr
    | cons r' rows =>
      rw [hlist] at hr
      exact ⟨rows, by rw [Option.some.inj hr]⟩
  have hrow : RowRep s.node r := (hrep.entry k).rows r (by rw [hrows]; exact List.mem_cons_self)
  have hend := ((hrep.pop hrows).2.setCtl k c).releaseMpdu k band hrow
  simp only [HeldState.set_set, HeldState.set_view_self, List.nil_append] at hend
  have htail := releaseMpdu_tail (s := (baPopMpdu s k r.mpdu.ref).setCtl k c) (k := k) band hrow
    (hrep.row_nodup (p := []) hrows).1 (hrep.length_msdus_lt (by rw [hrows]; exact List.mem_cons_self))
  refine ⟨_, hend, ?_, ?_, ?_, ?_, ?_⟩
  · exact fun x => releaseMpdu_frame band _ x
  · intro x
    by_cases hx : x = r.mpdu.ref
    · rw [hx]
      exact .inr htail
    · exact .inl (congrArg KiteNode.msduTail (releaseMpdu_other band hx _))
  · intro k' r' hr'
    by_cases hk : k' = k
    · subst hk
      rw [hrows] at hr'
      rcases List.mem_cons.mp hr' with rfl | hr'
      · exact .inr htail
      · left
        rw [HeldState.set_view_self]
        exact hr'
    · left
      rw [HeldState.set_view_of_ne hk]
      exact hr'
  · intro k' x hx
    by_cases hk : k' = k
    · subst hk
      rw [HeldState.set_view_self] at hx
      unfold View.refs
      rw [hrows, List.flatMap_cons]
      exact List.mem_append_right _ hx
    · rw [HeldState.set_view_of_ne hk] at hx
      exact hx
  · intro k'
    by_cases hk : k' = k
    · subst hk
      rw [HeldState.set_view_self]
      exact .inr (hc.trans (congrArg BaCtl.chain (hrep.entry k').ctl))
    · exact .inr (by rw [HeldState.set_view_of_ne hk])

/-- Sheds keep the representation. -/
theorem Sheds.rep (hrel : Sheds k s t) (hrep : Rep s h hand) :
    ∃ h', Rep t h' hand ∧ Released s t h h' := by
  induction hrel with
  | refl => exact ⟨h, hrep, .refl s h⟩
  | ctl c _ hc ih =>
    obtain ⟨h', hrep', hreleased⟩ := ih
    rw [congrArg BaCtl.chain (hrep'.entry k).ctl] at hc
    exact ⟨_, hrep'.setCtl k c, hreleased.trans (released_same rfl rfl hc)⟩
  | emit o _ ih =>
    obtain ⟨h', hrep', hreleased⟩ := ih
    exact ⟨_, hrep'.emit k o, hreleased.trans (released_same rfl rfl (.inr rfl))⟩
  | head c band _ hhead hc ih =>
    obtain ⟨h', hrep', hreleased⟩ := ih
    obtain ⟨h'', hrep'', hhead'⟩ := hrep'.release hhead hc band
    exact ⟨h'', hrep'', hreleased.trans hhead'⟩

/-- With the same nodes lost, a release only takes nodes out of use. -/
theorem Released.inUse (hreleased : Released s t h h') (hrep : Rep s h hand) (hrep' : Rep t h' hand)
    (hx : InUse t x) : InUse s x := by
  rw [hrep'.inUse_iff, Multiset.mem_add] at hx
  rw [hrep.inUse_iff, Multiset.mem_add]
  rcases hx with hx | hx
  · obtain ⟨k, hx⟩ := mem_heldNodes.mp hx
    exact .inl (mem_heldNodes.mpr ⟨k, hreleased.refs k x hx⟩)
  · exact .inr hx

/-- A node that leaves its list is back in its ring. -/
theorem Rep.returned (hrep : Rep s h hand) (hrep' : Rep t h' hand) (hreleased : Released s t h h')
    (hx : x ∈ (h.view k).refs) : x ∈ (h'.view k).refs ∨ x ∈ freeNodes t := by
  by_contra hnot
  obtain ⟨hout, hfree⟩ := not_or.mp hnot
  obtain ⟨hall, -⟩ := hrep.inUse_of_refs hx
  have huse : x ∈ heldNodes h' + hand := hrep'.inUse_iff.mp ⟨hall, hfree⟩
  rcases Multiset.mem_add.mp huse with hheld | hhand
  · obtain ⟨k', hx'⟩ := mem_heldNodes.mp hheld
    by_cases hk : k' = k
    · exact hout (hk ▸ hx')
    · exact hrep.not_held_of_ne hk hx (hreleased.refs k' x hx')
  · exact hrep.not_held_of_hand hhand hx

/-! ## Chains -/

/-- A node that `entry[3]` names is a held MPDU, or what was chained to it
    is lost. -/
def Chainable (s : BaState) (h : HeldState) (lost : Multiset NodeRef) (sub : NodeRef) : Prop :=
  (∃ k, ∃ r ∈ (h.view k).rows, r.mpdu.ref = sub) ∨
    ∀ t, (s.node sub).msduTail = some t → t ∈ lost

/-- The heap, what is held, and the nodes that are lost. -/
structure Chaining (s : BaState) (h : HeldState) (lost : Multiset NodeRef) : Prop where
  rep : Rep s h lost
  chain : ∀ k sub, (h.view k).chain = some sub → Chainable s h lost sub

variable {lost : Multiset NodeRef}

theorem Chainable.mono {lost' : Multiset NodeRef} {sub : NodeRef} (hsub : Chainable s h lost sub)
    (hrows : ∀ k, ∀ r ∈ (h.view k).rows, ∃ r' ∈ (h'.view k).rows, r'.mpdu.ref = r.mpdu.ref)
    (htail : (t.node sub).msduTail = (s.node sub).msduTail) (hlost : ∀ x ∈ lost, x ∈ lost') :
    Chainable t h' lost' sub := by
  rcases hsub with ⟨k, r, hr, rfl⟩ | hnone
  · obtain ⟨r', hr', heq⟩ := hrows k r hr
    exact .inl ⟨k, r', hr', heq⟩
  · right
    intro x hx
    rw [htail] at hx
    exact hlost x (hnone x hx)

/-- Releases lose nothing. -/
theorem Chaining.sheds (hinv : Chaining s h lost) (hrep : Rep t h' lost)
    (hreleased : Released s t h h') : Chaining t h' lost where
  rep := hrep
  chain k sub hsub := by
    have hold : (h.view k).chain = some sub := by
      rcases hreleased.chain k with hnone | heq
      · rw [hnone] at hsub
        cases hsub
      · rw [← heq]
        exact hsub
    rcases hinv.chain k sub hold with ⟨k', r, hr, rfl⟩ | htail
    · rcases hreleased.mpdus k' r hr with hr' | hnone
      · exact .inl ⟨k', r, hr', rfl⟩
      · right
        intro t ht
        rw [hnone] at ht
        cases ht
    · right
      intro t ht
      rcases hreleased.tails sub with heq | hnone
      · exact htail t (heq ▸ ht)
      · rw [hnone] at ht
        cases ht

/-- What an operation leaves, if it only releases. -/
theorem Chaining.after (hinv : Chaining s h lost) (hsheds : Sheds k s t) (hrep : Rep t h' lost) :
    Chaining t h' lost := by
  obtain ⟨h'', hrep', hreleased⟩ := hsheds.rep hinv.rep
  rw [hrep.unique hrep']
  exact hinv.sheds hrep' hreleased

/-! ## Holding -/

theorem reorderNodeAlloc_node (halloc : reorderNodeAlloc s = some (x, t)) : t.node = s.node := by
  unfold reorderNodeAlloc at halloc
  split at halloc
  · obtain ⟨-, rfl⟩ := Prod.mk.inj (Option.some.inj halloc)
    rfl
  · split at halloc
    · obtain ⟨-, rfl⟩ := Prod.mk.inj (Option.some.inj halloc)
      rfl
    · cases halloc

/-- The frames of the nodes and their last MSDUs stay. -/
def KeepsNodes (s t : BaState) : Prop :=
  ∀ x, (t.node x).toKiteFrame = (s.node x).toKiteFrame ∧
    (t.node x).msduTail = (s.node x).msduTail

theorem KeepsNodes.trans (hst : KeepsNodes s t) (htu : KeepsNodes t u) : KeepsNodes s u :=
  fun x => ⟨(htu x).1.trans (hst x).1, (htu x).2.trans (hst x).2⟩

theorem keepsNodes_setNode {n : KiteNode} {r : NodeRef}
    (hframe : n.toKiteFrame = (s.node r).toKiteFrame) (htail : n.msduTail = (s.node r).msduTail) :
    KeepsNodes s (s.setNode r n) := by
  intro x
  unfold BaState.setNode
  by_cases hx : x = r
  · subst hx
    simp only [Function.update_self]
    exact ⟨hframe, htail⟩
  · simp only [Function.update_of_ne hx]
    exact ⟨trivial, trivial⟩

theorem keepsNodes_setEntry (s : BaState) (k : BaKey) (e : BaEntry) :
    KeepsNodes s (s.setEntry k e) := fun _ => ⟨rfl, rfl⟩

theorem keepsNodes_insert (s : BaState) (k : BaKey) (pn : KiteFrame) (node : NodeRef) :
    KeepsNodes s (kiteInsert s k pn node) := by
  unfold kiteInsert
  dsimp only
  split
  · intro x
    unfold reorderNodeFree
    split <;> exact ⟨rfl, rfl⟩
  · unfold kiteLink linkFrom
    dsimp only
    refine .trans ?_ (keepsNodes_setEntry _ k _)
    split
    · refine .trans ?_ (keepsNodes_setEntry _ k _)
      exact keepsNodes_setNode rfl rfl
    · refine .trans ?_ (keepsNodes_setNode rfl rfl)
      exact keepsNodes_setNode rfl rfl

/-- The writes of `kiteChain` but for the last. -/
theorem kiteChain_last (s : BaState) (sub node : NodeRef) :
    ∃ t, KeepsNodes s t ∧
      kiteChain s sub node = t.setNode sub { t.node sub with msduTail := some node } := by
  refine ⟨_, ?_, rfl⟩
  split
  · refine .trans ?_ (keepsNodes_setNode rfl rfl)
    refine .trans ?_ (keepsNodes_setNode rfl rfl)
    exact keepsNodes_setNode rfl rfl
  · refine .trans ?_ (keepsNodes_setNode rfl rfl)
    refine .trans ?_ (keepsNodes_setNode rfl rfl)
    exact keepsNodes_setNode rfl rfl

theorem kiteChain_rest (s : BaState) (sub node : NodeRef) :
    (kiteChain s sub node).outs = s.outs ∧ (kiteChain s sub node).entry = s.entry ∧
      (kiteChain s sub node).pri = s.pri ∧ (kiteChain s sub node).sec = s.sec := by
  unfold kiteChain
  dsimp only
  split <;> exact ⟨rfl, rfl, rfl, rfl⟩

theorem kiteChain_frame (s : BaState) (sub node x : NodeRef) :
    ((kiteChain s sub node).node x).toKiteFrame = (s.node x).toKiteFrame := by
  obtain ⟨t, hkeeps, hlast⟩ := kiteChain_last s sub node
  rw [hlast, BaState.setNode]
  by_cases hx : x = sub
  · subst hx
    simp only [Function.update_self]
    exact (hkeeps x).1
  · simp only [Function.update_of_ne hx]
    exact (hkeeps x).1

/-- The node is the last MSDU of `sub` now, and of no other. -/
theorem kiteChain_tail (s : BaState) (sub node x : NodeRef) :
    ((kiteChain s sub node).node x).msduTail =
      if x = sub then some node else (s.node x).msduTail := by
  obtain ⟨t, hkeeps, hlast⟩ := kiteChain_last s sub node
  rw [hlast, BaState.setNode]
  by_cases hx : x = sub
  · subst hx
    simp only [Function.update_self, if_true]
  · simp only [Function.update_of_ne hx, if_neg hx]
    exact (hkeeps x).2

/-- Of a node that is neither new nor the last MSDU of `sub` only the
    MSDUs are written, and only if it is `sub`. -/
theorem kiteChain_held (s : BaState) {sub node x : NodeRef} (hnode : x ≠ node)
    (htail : ∀ t, (s.node sub).msduTail = some t → x ≠ t) :
    (x ≠ sub → (kiteChain s sub node).node x = s.node x) ∧
      ((kiteChain s sub node).node x).next = (s.node x).next ∧
      ((kiteChain s sub node).node x).idx = (s.node x).idx ∧
      ((kiteChain s sub node).node x).pool = (s.node x).pool ∧
      ((kiteChain s sub node).node x).tick = (s.node x).tick := by
  unfold kiteChain BaState.setNode
  dsimp only
  by_cases hx : x = sub
  · subst hx
    split
    · next t ht => simp [Function.update_of_ne hnode, Function.update_of_ne (htail t ht)]
    · simp [Function.update_of_ne hnode]
  · split
    · next t ht =>
      simp [Function.update_of_ne hnode, Function.update_of_ne hx, Function.update_of_ne (htail t ht)]
    · simp [Function.update_of_ne hnode, Function.update_of_ne hx]

/-- The MSDUs of an MSDU's node do not matter. -/
theorem RowRep.congr_msdus {node node' : NodeRef → KiteNode} {r : Row} (h : RowRep node r)
    (hmpdu : node' r.mpdu.ref = node r.mpdu.ref)
    (hmsdus : ∀ c ∈ r.msdus, (node' c.ref).toKiteFrame = (node c.ref).toKiteFrame ∧
      (node' c.ref).next = (node c.ref).next ∧ (node' c.ref).idx = (node c.ref).idx ∧
      (node' c.ref).pool = (node c.ref).pool ∧ (node' c.ref).tick = (node c.ref).tick) :
    RowRep node' r := by
  refine ⟨?_, ?_, ?_⟩
  · intro c hc
    obtain ⟨hf, hi, hp, ht⟩ := h.filled c hc
    rcases List.mem_cons.mp hc with rfl | hc
    · constructor <;> rw [hmpdu] <;> assumption
    · obtain ⟨hf', -, hi', hp', ht'⟩ := hmsdus c hc
      exact ⟨hf'.trans hf, hi'.trans hi, hp'.trans hp, ht'.trans ht⟩
  · rw [hmpdu]
    refine h.linked.congr fun x hx => ?_
    obtain ⟨c, hc, rfl⟩ := List.mem_map.mp hx
    exact (hmsdus c hc).2.1
  · rw [hmpdu]
    exact h.tail

/-- What is chained to a node that is no held MPDU joins nothing. -/
theorem Rep.chain_lost {sub node : NodeRef} (hrep : Rep s h (node ::ₘ hand))
    (hsub : ∀ k, ∀ r ∈ (h.view k).rows, r.mpdu.ref ≠ sub)
    (htail : ∀ t, (s.node sub).msduTail = some t → t ∈ hand) :
    Rep (kiteChain s sub node) h (node ::ₘ hand) := by
  obtain ⟨houts, hentry, hpri, hsec⟩ := kiteChain_rest s sub node
  have hheld : ∀ k, ∀ x ∈ (h.view k).refs, x ≠ node ∧ ∀ t, (s.node sub).msduTail = some t → x ≠ t := by
    intro k x hx
    constructor
    · rintro rfl
      exact hrep.not_held_of_hand (Multiset.mem_cons_self ..) hx
    · rintro t ht rfl
      exact hrep.not_held_of_hand (Multiset.mem_cons_of_mem (htail x ht)) hx
  refine ⟨houts.trans hrep.outs, fun k => ?_, ?_, hpri ▸ hrep.pri, hsec ▸ hrep.sec⟩
  · obtain ⟨hctl, hlist, hcount, hrows⟩ := hrep.entry k
    have hmpdu : ∀ r ∈ (h.view k).rows, (kiteChain s sub node).node r.mpdu.ref = s.node r.mpdu.ref := by
      intro r hr
      obtain ⟨hnode, hlast⟩ := hheld k _ (View.mem_refs hr r.mem_refs_mpdu)
      exact (kiteChain_held s hnode hlast).1 (hsub k r hr)
    rw [hentry]
    refine ⟨hctl, ?_, hcount, fun r hr => (hrows r hr).congr_msdus (hmpdu r hr) fun c hc => ?_⟩
    · refine hlist.congr fun x hx => ?_
      obtain ⟨r, hr, rfl⟩ := List.mem_map.mp hx
      rw [hmpdu r hr]
    · have hmem : c.ref ∈ r.refs := List.mem_cons_of_mem _ (List.mem_map_of_mem hc)
      obtain ⟨hnode, hlast⟩ := hheld k _ (View.mem_refs hr hmem)
      exact ⟨kiteChain_frame s sub node c.ref, (kiteChain_held s hnode hlast).2⟩
  · unfold freeNodes
    rw [hpri, hsec]
    exact hrep.nodes

/-- The node taken is the ring's, and a free at once puts it back. -/
theorem Rep.alloc_cons (hrep : Rep s h hand) (halloc : reorderNodeAlloc s = some (x, t)) :
    freeNodes s = x ::ₘ freeNodes t ∧ freeNodes (reorderNodeFree t x.idx x.pool) = freeNodes s := by
  have hrep' := hrep.nodeAlloc halloc
  have hcons : freeNodes s = x ::ₘ freeNodes t := by
    refine add_right_cancel (b := heldNodes h + hand) ?_
    calc freeNodes s + (heldNodes h + hand)
        = allNodes := by rw [← add_assoc, hrep.nodes]
      _ = freeNodes t + heldNodes h + x ::ₘ hand := hrep'.nodes.symm
      _ = x ::ₘ freeNodes t + (heldNodes h + hand) := by
          rw [Multiset.add_cons, Multiset.cons_add, add_assoc]
  refine ⟨hcons, ?_⟩
  rw [hcons]
  exact (free_of_le hrep'.pri hrep'.sec (hcons ▸ hrep.free_le)).2.2


/-! ## A node finds its place -/

/-- A node is taken and filled with a frame. -/
structure Grasped (s : BaState) (h : HeldState) (lost : Multiset NodeRef) (pn : KiteFrame)
    (node : NodeRef) (tick : ℕ) : Prop where
  rep : Rep s h (node ::ₘ lost)
  fresh : Fresh s.node ⟨node, pn, tick⟩
  chain : ∀ k sub, (h.view k).chain = some sub → Chainable s h lost sub

variable {node : NodeRef} {tick : ℕ}

theorem fillNode_other (hx : x ≠ node) : (kiteFillNode s pn node tick).node x = s.node x :=
  Function.update_of_ne hx _ _

theorem Chaining.grasped (hinv : Chaining s h lost) (halloc : reorderNodeAlloc s = some (node, t))
    (pn : KiteFrame) (tick : ℕ) : Grasped (kiteFillNode t pn node tick) h lost pn node tick := by
  obtain ⟨hfilled, hfresh⟩ := (hinv.rep.nodeAlloc halloc).fillNode pn tick
  refine ⟨hfilled, hfresh, ?_⟩
  intro k sub hsub
  by_cases hx : sub = node
  · right
    intro x hx'
    rw [hx, hfresh.msduTail] at hx'
    cases hx'
  · refine (hinv.chain k sub hsub).mono (fun _ r hr => ⟨r, hr, rfl⟩) ?_ fun _ hx => hx
    rw [fillNode_other hx, reorderNodeAlloc_node halloc]

/-- The node is linked in, chained or lost. -/
structure Placed (s t : BaState) (h h' : HeldState) (lost' : Multiset NodeRef) : Prop where
  chaining : Chaining t h' lost'
  kept : ∀ k, ∀ x ∈ (h.view k).refs, x ∈ (h'.view k).refs
  frames : ∀ x, (t.node x).toKiteFrame = (s.node x).toKiteFrame
  inUse : ∀ x, InUse t x → InUse s x

/-- An entry's rows stay, but for the new node in one of them. -/
theorem Grasped.placed {m : Move} (hgrasped : Grasped s h lost pn node tick)
    (hrep : Rep t (h.set k m) lost)
    (hframes : ∀ x, (t.node x).toKiteFrame = (s.node x).toKiteFrame)
    (hrows : ∀ r ∈ (h.view k).rows, ∃ r' ∈ m.view.rows, r'.mpdu.ref = r.mpdu.ref ∧
      ∀ x ∈ r.refs, x ∈ r'.refs)
    (hrefs : ∀ x ∈ m.view.refs, x = node ∨ x ∈ (h.view k).refs)
    (hchain : ∀ sub, m.view.chain = some sub →
      (h.view k).chain = some sub ∨ ∃ r ∈ m.view.rows, r.mpdu.ref = sub)
    (htails : ∀ sub, (t.node sub).msduTail = (s.node sub).msduTail ∨
      ∃ r ∈ m.view.rows, r.mpdu.ref = sub) :
    Placed s t h (h.set k m) lost := by
  have hkept : ∀ k', ∀ r ∈ (h.view k').rows, ∃ r' ∈ ((h.set k m).view k').rows,
      r'.mpdu.ref = r.mpdu.ref ∧ ∀ x ∈ r.refs, x ∈ r'.refs := by
    intro k' r hr
    by_cases hk : k' = k
    · subst hk
      rw [HeldState.set_view_self]
      exact hrows r hr
    · rw [HeldState.set_view_of_ne hk]
      exact ⟨r, hr, rfl, fun _ hx => hx⟩
  have hchainable : ∀ k' sub, (h.view k').chain = some sub →
      Chainable t (h.set k m) lost sub := by
    intro k' sub hsub
    rcases htails sub with heq | ⟨r, hr, href⟩
    · refine (hgrasped.chain k' sub hsub).mono (fun k' r hr => ?_) heq fun _ hx => hx
      obtain ⟨r', hr', href, -⟩ := hkept k' r hr
      exact ⟨r', hr', href⟩
    · refine .inl ⟨k, r, ?_, href⟩
      rw [HeldState.set_view_self]
      exact hr
  refine ⟨⟨hrep, ?_⟩, ?_, hframes, ?_⟩
  · intro k' sub hsub
    by_cases hk : k' = k
    · subst hk
      rw [HeldState.set_view_self] at hsub
      rcases hchain sub hsub with hold | ⟨r, hr, href⟩
      · exact hchainable k' sub hold
      · refine .inl ⟨k', r, ?_, href⟩
        rw [HeldState.set_view_self]
        exact hr
    · rw [HeldState.set_view_of_ne hk] at hsub
      exact hchainable k' sub hsub
  · intro k' x hx
    obtain ⟨r, hr, hx⟩ := List.mem_flatMap.mp hx
    obtain ⟨r', hr', -, hsub⟩ := hkept k' r hr
    exact View.mem_refs hr' (hsub x hx)
  · intro x hx
    rw [hrep.inUse_iff, Multiset.mem_add] at hx
    rw [hgrasped.rep.inUse_iff, Multiset.mem_add, Multiset.mem_cons]
    rcases hx with hx | hx
    · obtain ⟨k', hx⟩ := mem_heldNodes.mp hx
      by_cases hk : k' = k
      · subst hk
        rw [HeldState.set_view_self] at hx
        rcases hrefs x hx with rfl | hx
        · exact .inr (.inl rfl)
        · exact .inl (mem_heldNodes.mpr ⟨k', hx⟩)
      · rw [HeldState.set_view_of_ne hk] at hx
        exact .inl (mem_heldNodes.mpr ⟨k', hx⟩)
    · exact .inr (.inr hx)

theorem View.rows_insert (v : View) (c : Cell) {r : Row} (hr : r ∈ v.rows) :
    r ∈ (v.insert c).view.rows := by
  have hsplit : v.rows = v.before c.frame.sn ++ v.after c.frame.sn :=
    List.takeWhile_append_dropWhile.symm
  unfold View.insert
  split
  · exact hr
  · rw [hsplit] at hr
    simp only [List.mem_append, List.mem_cons] at hr ⊢
    tauto

theorem View.refs_insert {v : View} {c : Cell} (hx : x ∈ (v.insert c).view.refs) :
    x = c.ref ∨ x ∈ v.refs := by
  have hsplit : v.rows = v.before c.frame.sn ++ v.after c.frame.sn :=
    List.takeWhile_append_dropWhile.symm
  obtain ⟨r, hr, hx⟩ := List.mem_flatMap.mp hx
  unfold View.insert at hr
  split at hr
  · exact .inr (View.mem_refs hr hx)
  · have hcases : r = ⟨c, []⟩ ∨ r ∈ v.rows := by
      rw [hsplit]
      simp only [List.mem_append, List.mem_cons] at hr ⊢
      tauto
    rcases hcases with rfl | hr
    · exact .inl (List.mem_singleton.mp hx)
    · exact .inr (View.mem_refs hr hx)

/-- The chain is at the new row, if one starts. -/
theorem View.chain_insert {v : View} {c : Cell} {sub : NodeRef}
    (hsub : (v.insert c).view.chain = some sub) :
    v.chain = some sub ∨ ∃ r ∈ (v.insert c).view.rows, r.mpdu.ref = sub := by
  unfold View.insert at hsub ⊢
  split at hsub
  · exact .inl hsub
  · next hnew =>
    rw [if_neg hnew]
    have hsub' : (if c.frame.amsdu ≤ 1 then none else some c.ref) = some sub := hsub
    split at hsub'
    · cases hsub'
    · exact .inr ⟨⟨c, []⟩, List.mem_append_right _ List.mem_cons_self, Option.some.inj hsub'⟩

theorem Grasped.insert (hgrasped : Grasped s h lost pn node tick) (k : BaKey) :
    Placed s (kiteInsert s k pn node) h (h.app k (View.insert ⟨node, pn, tick⟩)) lost := by
  have hkeeps := keepsNodes_insert s k pn node
  refine hgrasped.placed (hgrasped.rep.insert (k := k) hgrasped.fresh) (fun x => (hkeeps x).1)
    ?_ ?_ ?_ ?_
  · exact fun r hr => ⟨r, View.rows_insert _ _ hr, rfl, fun _ hx => hx⟩
  · exact fun x hx => View.refs_insert hx
  · exact fun sub hsub => View.chain_insert hsub
  · exact fun sub => .inl (hkeeps sub).2

/-- The node joins a held MPDU, of whatever entry. -/
theorem Grasped.chain_row {r : Row} {before after : List Row}
    (hgrasped : Grasped s h lost pn node tick)
    (hrows : (h.view k).rows = before ++ r :: after) :
    Placed s (kiteChain s r.mpdu.ref node) h
      (h.set k ⟨{ h.view k with rows := before ++ r.more ⟨node, pn, tick⟩ :: after }, []⟩)
      lost := by
  have hr : r ∈ (h.view k).rows := by
    rw [hrows]
    exact List.mem_append_right _ List.mem_cons_self
  have hmore : r.more ⟨node, pn, tick⟩ ∈ before ++ r.more ⟨node, pn, tick⟩ :: after :=
    List.mem_append_right _ List.mem_cons_self
  have hmsdus : ∀ x ∈ (r.more ⟨node, pn, tick⟩).refs, x = node ∨ x ∈ r.refs := by
    intro x hx
    unfold Row.more Row.refs Row.cells at hx
    unfold Row.refs Row.cells
    simp only [List.map_cons, List.map_append, List.mem_cons, List.mem_append, List.map_nil,
      List.not_mem_nil, or_false] at hx ⊢
    tauto
  have hrep := hgrasped.rep.chain hgrasped.fresh hrows
  refine hgrasped.placed hrep (fun x => kiteChain_frame s r.mpdu.ref node x) ?_ ?_ ?_ ?_
  · intro r' hr'
    rw [hrows, List.mem_append, List.mem_cons] at hr'
    rcases hr' with hr' | rfl | hr'
    · exact ⟨r', List.mem_append_left _ hr', rfl, fun _ hx => hx⟩
    · refine ⟨_, hmore, rfl, fun x hx => ?_⟩
      unfold Row.more Row.refs Row.cells
      rw [List.map_cons, List.map_append, ← List.cons_append]
      exact List.mem_append_left _ hx
    · exact ⟨r', List.mem_append_right _ (List.mem_cons_of_mem _ hr'), rfl, fun _ hx => hx⟩
  · intro x hx
    obtain ⟨r', hr', hx⟩ := List.mem_flatMap.mp hx
    have hcases : r' = r.more ⟨node, pn, tick⟩ ∨ r' ∈ before ++ r :: after := by
      simp only [List.mem_append, List.mem_cons] at hr' ⊢
      tauto
    rcases hcases with rfl | hr'
    · rcases hmsdus x hx with rfl | hx
      · exact .inl rfl
      · exact .inr (View.mem_refs hr hx)
    · rw [← hrows] at hr'
      exact .inr (View.mem_refs hr' hx)
  · exact fun sub hsub => .inl hsub
  · intro sub
    by_cases hsub : sub = r.mpdu.ref
    · exact .inr ⟨_, hmore, hsub.symm⟩
    · left
      rw [kiteChain_tail, if_neg hsub]

/-- What is chained to any other node is lost. -/
theorem Grasped.chain_lost {sub : NodeRef} (hgrasped : Grasped s h lost pn node tick)
    (hsub : ∀ k, ∀ r ∈ (h.view k).rows, r.mpdu.ref ≠ sub)
    (htail : ∀ x, (s.node sub).msduTail = some x → x ∈ lost) :
    Placed s (kiteChain s sub node) h h (node ::ₘ lost) := by
  have hrep := hgrasped.rep.chain_lost hsub htail
  refine ⟨⟨hrep, ?_⟩, fun _ _ hx => hx, fun x => kiteChain_frame s sub node x, fun x hx => ?_⟩
  · intro k sub' hsub'
    by_cases heq : sub' = sub
    · right
      intro x hx
      rw [kiteChain_tail, if_pos heq] at hx
      rw [← Option.some.inj hx]
      exact Multiset.mem_cons_self ..
    · refine (hgrasped.chain k sub' hsub').mono (fun _ r hr => ⟨r, hr, rfl⟩) ?_
        fun _ hx => Multiset.mem_cons_of_mem hx
      rw [kiteChain_tail, if_neg heq]
  · rw [hrep.inUse_iff] at hx
    exact hgrasped.rep.inUse_iff.mpr hx

/-- Two views with the same words and numbers. -/
structure SameNumbers (v w : View) : Prop where
  ctl : v.toBaCtl = w.toBaCtl
  sns : v.rows.map Row.sn = w.rows.map Row.sn

theorem Grasped.chain_placed {sub : NodeRef} (hgrasped : Grasped s h lost pn node tick)
    (hsub : (h.view k).chain = some sub) :
    ∃ h' lost', Placed s (kiteChain s sub node) h h' lost' ∧
      ∀ k', SameNumbers (h'.view k') (h.view k') := by
  by_cases hrow : ∃ k, ∃ r ∈ (h.view k).rows, r.mpdu.ref = sub
  · obtain ⟨k', r, hr, rfl⟩ := hrow
    obtain ⟨before, after, hrows⟩ := List.append_of_mem hr
    refine ⟨_, _, hgrasped.chain_row hrows, fun k'' => ?_⟩
    by_cases hk : k'' = k'
    · subst hk
      rw [HeldState.set_view_self]
      refine ⟨rfl, ?_⟩
      rw [hrows, List.map_append, List.map_append]
      rfl
    · rw [HeldState.set_view_of_ne hk]
      exact ⟨rfl, rfl⟩
  · have hnot : ∀ k, ∀ r ∈ (h.view k).rows, r.mpdu.ref ≠ sub :=
      fun k r hr heq => hrow ⟨k, r, hr, heq⟩
    exact ⟨h, _, hgrasped.chain_lost hnot ((hgrasped.chain k sub hsub).resolve_left hrow),
      fun _ => ⟨rfl, rfl⟩⟩

/-- The frame's words are written last. -/
theorem Placed.seen {lost' : Multiset NodeRef} (hplaced : Placed s t h h' lost') (k : BaKey)
    (pn : KiteFrame) :
    Placed s (t.setCtl k ((t.entry k).toBaCtl.seen pn 3)) h
      (h'.set k ⟨(h'.view k).setCtl ((h'.view k).toBaCtl.seen pn 3), []⟩) lost' := by
  obtain ⟨hinv, hkept, hframes, huse⟩ := hplaced
  rw [(hinv.rep.entry k).ctl]
  have hrep := hinv.rep.setCtl k ((h'.view k).toBaCtl.seen pn 3)
  have hreleased : Released t (t.setCtl k ((h'.view k).toBaCtl.seen pn 3)) h'
      (h'.set k ⟨(h'.view k).setCtl ((h'.view k).toBaCtl.seen pn 3), []⟩) :=
    released_same rfl rfl (chain_seen ..)
  refine ⟨hinv.sheds hrep hreleased, ?_, hframes, ?_⟩
  · intro k' x hx
    by_cases hk : k' = k
    · subst hk
      rw [HeldState.set_view_self]
      exact hkept k' x hx
    · rw [HeldState.set_view_of_ne hk]
      exact hkept k' x hx
  · exact fun x hx => huse x (hreleased.inUse hinv.rep hrep hx)

theorem sns_chainTo (v : View) (sub : NodeRef) (c : Cell) :
    (v.chainTo sub c).rows.map Row.sn = v.rows.map Row.sn := by
  unfold View.chainTo
  rw [List.map_map]
  refine List.map_congr_left fun r _ => ?_
  rw [Function.comp_apply]
  split <;> rfl

/-- Holding a frame does to the words and numbers of all entries what it
    does to the frame's view, wherever the node ends up. -/
theorem Chaining.hold (hinv : Chaining s h lost) (halloc : reorderNodeAlloc s = some (node, t))
    (pn : KiteFrame) (k : BaKey) (tick : ℕ) :
    ∃ h' lost', Placed (kiteFillNode t pn node tick) (kiteHold s k pn tick) h h' lost' ∧
      ∀ k', SameNumbers (h'.view k') ((h.app k (View.hold (some node) pn tick)).view k') := by
  have hgrasped := hinv.grasped halloc pn tick
  set u := kiteFillNode t pn node tick with hu
  have hchain : (u.entry k).chain = (h.view k).chain :=
    congrArg BaCtl.chain (hgrasped.rep.entry k).ctl
  cases hsub : (h.view k).chain with
  | some sub =>
    obtain ⟨h', lost', hplaced, hsame⟩ := hgrasped.chain_placed hsub
    have hhold : kiteHold s k pn tick = (kiteChain u sub node).setCtl k
        (((kiteChain u sub node).entry k).toBaCtl.seen pn 3) := by
      unfold kiteHold
      rw [halloc]
      dsimp only
      rw [← hu, hchain, hsub]
    rw [hhold]
    refine ⟨_, lost', hplaced.seen k pn, fun k' => ?_⟩
    by_cases hk : k' = k
    · subst hk
      rw [HeldState.set_view_self, HeldState.app_view_self]
      unfold View.hold
      rw [hsub]
      dsimp only
      constructor
      · show (h'.view k').toBaCtl.seen pn 3 = (h.view k').toBaCtl.seen pn 3
        rw [(hsame k').ctl]
      · show (h'.view k').rows.map Row.sn = ((h.view k').chainTo sub ⟨node, pn, tick⟩).rows.map Row.sn
        rw [(hsame k').sns, sns_chainTo]
    · unfold HeldState.app
      rw [HeldState.set_view_of_ne hk, HeldState.set_view_of_ne hk]
      exact hsame k'
  | none =>
    have hplaced := hgrasped.insert k
    have hhold : kiteHold s k pn tick = (kiteInsert u k pn node).setCtl k
        (((kiteInsert u k pn node).entry k).toBaCtl.seen pn 3) := by
      unfold kiteHold
      rw [halloc]
      dsimp only
      rw [← hu, hchain, hsub]
    rw [hhold]
    refine ⟨_, lost, hplaced.seen k pn, fun k' => ?_⟩
    by_cases hk : k' = k
    · subst hk
      rw [HeldState.set_view_self, HeldState.app_view_self, HeldState.app_view_self]
      unfold View.hold
      rw [hsub]
      exact ⟨rfl, rfl⟩
    · unfold HeldState.app
      rw [HeldState.set_view_of_ne hk, HeldState.set_view_of_ne hk, HeldState.set_view_of_ne hk]
      exact ⟨rfl, rfl⟩

end ClankerNPU.Kite
