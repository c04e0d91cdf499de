import ClankerNPU.Kite.Flows

/-! # Runs of one entry without A-MSDUs

    Frames, timeouts and flushes of one entry in any order, from any state
    the system reaches in which the entry's list is in order and
    `ba_state_update` has no unfinished A-MSDU to go back to. With 5600
    buffers every frame that is to be held finds a node, so the numbers
    the entry hands over follow each other. -/

open LinkedList

namespace ClankerNPU.Kite

variable {s t s0 : BaState} {h h' : HeldState} {hand lost lost' : Multiset NodeRef} {k : BaKey}
  {pn : KiteFrame} {band : ℕ} {v w : View} {ids : Finset ℕ} {ys : List Out}

/-! ## What every reachable entry is -/

/-- Numbers have 12 bits, and while an entry waits for its first frame it
    holds none. -/
structure View.Tidy (v : View) : Prop where
  sns : ∀ x ∈ v.rows.map Row.sn, x < 4096
  waits : v.state = 3 → v.rows = []

theorem View.Tidy.fewer (h : v.Tidy) (hrows : w.rows.Sublist v.rows)
    (hstate : w.state = 3 → v.state = 3 ∨ w.rows = []) : w.Tidy := by
  refine ⟨fun x hx => h.sns x ((hrows.map Row.sn).subset hx), fun hwait => ?_⟩
  rcases hstate hwait with hstate | hnil
  · have hnil := h.waits hstate
    rw [hnil] at hrows
    exact List.sublist_nil.mp hrows
  · exact hnil

theorem View.Tidy.lets {m : Move} (h : v.Tidy) (hm : Lets k v m) : m.view.Tidy := by
  refine h.fewer hm.sublist fun hwait => .inl ?_
  rw [hm.ctl] at hwait
  exact hwait

theorem View.Tidy.stateUpdate (h : v.Tidy) (sn checkType : ℕ) :
    (v.stateUpdate k sn checkType).view.Tidy := by
  refine h.fewer (v.stateUpdate_rows sn checkType) fun hwait => .inl ?_
  rw [(v.stateUpdate_words sn checkType).2] at hwait
  exact hwait

/-- A list emptied by a flush. -/
theorem View.Tidy.of_nil (hrows : v.rows = []) : v.Tidy := by
  refine ⟨fun x hx => ?_, fun _ => hrows⟩
  rw [hrows] at hx
  cases hx

theorem View.Tidy.arrive (h : v.Tidy) (pn : KiteFrame) (band : ℕ) :
    (v.arrive k pn band).view.Tidy ∧ (v.arrive k pn band).view.state ≠ 3 := by
  set m : Move := if v.state = 3 then v.openWindow k pn else ⟨v, []⟩ with hm
  have hopen : m.view.Tidy ∧ m.view.state ≠ 3 := by
    rw [hm]
    split
    · exact ⟨.of_nil rfl, show (4 : ℕ) ≠ 3 by decide⟩
    · next hstate => exact ⟨h, hstate⟩
  set v' : View := { m.view with band := band } with hv'
  have hband : v'.Tidy := hopen.1.fewer (List.Sublist.refl _) .inl
  have hslide := lets_slide k pn.sn nodeFuel (v'.stateUpdate k pn.sn pn.amsdu).view
  have htidy := (hband.stateUpdate pn.sn pn.amsdu).lets hslide
  refine ⟨htidy, fun hwait => ?_⟩
  have hstate := congrArg BaCtl.state hslide.ctl
  have hwords := (v'.stateUpdate_words (k := k) pn.sn pn.amsdu).2
  exact hopen.2 (hwords.symm.trans (hstate.symm.trans hwait))

/-- What a branch leaves held was held before, or is the frame. -/
theorem View.take_sns (v : View) (flags : RxFlags) (fresh : Option NodeRef) (st : Standing) :
    ∀ x ∈ (View.take k flags fresh pn band st v).view.rows.map Row.sn,
      x ∈ v.rows.map Row.sn ∨ x = pn.sn := by
  intro x hx
  cases st with
  | inOrder =>
    have hsub : (v.inOrder k pn).view.rows.Sublist v.rows := by
      unfold View.inOrder
      split
      · exact (runRest_suffix pn.sn v.rows).sublist
      · exact List.Sublist.refl _
    exact .inl ((hsub.map Row.sn).subset hx)
  | duplicate => exact .inl hx
  | behind =>
    have hrows : (v.behind k flags.fast pn band).view.rows = v.rows := by
      unfold View.behind
      split <;> rfl
    exact .inl (hrows ▸ hx)
  | inside =>
    cases fresh with
    | none => exact .inl hx
    | some node =>
      set c : Cell := ⟨node, pn, flags.tick⟩ with hc
      cases hchain : v.chain with
      | some sub =>
        have hrows : (v.hold (some node) pn flags.tick).view.rows = (v.chainTo sub c).rows := by
          unfold View.hold
          rw [hchain]
          rfl
        left
        rw [← sns_chainTo v sub c, ← hrows]
        exact hx
      | none =>
        have hrows : (v.hold (some node) pn flags.tick).view.rows = (v.insert c).view.rows := by
          unfold View.hold
          rw [hchain]
          rfl
        replace hx : x ∈ (v.insert c).view.rows.map Row.sn := hrows ▸ hx
        unfold View.insert at hx
        split at hx
        · exact .inl hx
        · obtain ⟨r, hr, rfl⟩ := List.mem_map.mp hx
          rcases List.mem_append.mp hr with hr | hr
          · exact .inl (List.mem_map_of_mem ((List.takeWhile_sublist _).subset hr))
          · rcases List.mem_cons.mp hr with rfl | hr
            · exact .inr rfl
            · exact .inl (List.mem_map_of_mem ((List.dropWhile_sublist _).subset hr))

theorem View.Tidy.take (h : v.Tidy) (hopen : v.state ≠ 3) (hsn : pn.sn < 4096) (flags : RxFlags)
    (fresh : Option NodeRef) (st : Standing) :
    (View.take k flags fresh pn band st v).view.Tidy := by
  refine ⟨fun x hx => ?_, fun hwait => ?_⟩
  · rcases v.take_sns flags fresh st x hx with hx | rfl
    · exact h.sns x hx
    · exact hsn
  · rw [v.take_state] at hwait
    exact absurd hwait hopen

theorem View.Tidy.same (h : v.Tidy) (hsame : SameNumbers w v) : w.Tidy := by
  obtain ⟨hctl, hsns⟩ := hsame
  refine ⟨hsns ▸ h.sns, fun hwait => ?_⟩
  rw [hctl] at hwait
  rw [h.waits hwait] at hsns
  exact List.map_eq_nil_iff.mp hsns

theorem View.Tidy.step {a : BaAction} (h : v.Tidy) (hmove : EntryMove k a v w) : w.Tidy := by
  cases hmove with
  | same hsame => exact h.same hsame
  | flush => exact .of_nil rfl
  | timeout => exact h.lets (lets_timeout ..)
  | bar =>
    unfold View.barInfo Move.andThen
    dsimp only
    split
    · exact (h.stateUpdate _ 3).lets (lets_advance ..)
    · exact h.stateUpdate _ 3
  | setBa =>
    unfold View.setBaEntry Move.andThen
    dsimp only
    split <;> exact .of_nil rfl
  | reset => exact .of_nil rfl
  | frame hsn _ _ _ hsame =>
    obtain ⟨htidy, hopen⟩ := h.arrive _ _
    exact (htidy.take hopen hsn _ _ _).same hsame

theorem tidy_of_reachable (hreach : baSystem.Reachable s) :
    ∃ h lost, Chaining s h lost ∧ ∀ k, (h.view k).Tidy := by
  induction hreach with
  | init hinit =>
    obtain ⟨h, hrep, hnothing⟩ := hinit
    refine ⟨h, 0, ⟨hrep, fun k sub hsub => ?_⟩, fun k => .of_nil (hnothing k).1⟩
    rw [(hnothing k).2.1] at hsub
    cases hsub
  | step a _ hstep ih =>
    obtain ⟨h, lost, hinv, htidy⟩ := ih
    obtain ⟨h', lost', hinv', hmoves⟩ := hinv.step hstep
    exact ⟨h', lost', hinv', fun k => (htidy k).step (hmoves k)⟩

/-! ## The start -/

/-- `ba_state_update` finds no A-MSDU to go back to, and the list is in
    order and holds no MPDU of more than one MSDU. -/
structure Plain (s : BaState) (k : BaKey) : Prop where
  last : (s.entry k).last < 4096
  chain : (s.entry k).chain = none
  amsdu : (s.entry k).amsduOpen → (s.entry k).flag ≠ 0
  list : ∃ l, ListOrdered s k l ∧ ∀ x ∈ l, (s.node x).msduHead = none

theorem Plain.flows (h' : Plain s k) (hrep : Rep s h hand) (htidy : (h.view k).Tidy)
    (hwin : 1 ≤ (s.entry k).win ∧ (s.entry k).win ≤ 511) : (h.view k).Flows [] none := by
  obtain ⟨hctl, hlist, -, hrows⟩ := hrep.entry k
  obtain ⟨hlast, hchain, hamsdu, l, horder, hlone⟩ := h'
  obtain rfl : l = (h.view k).rows.map (·.mpdu.ref) := horder.linked.unique hlist
  have hmem : ∀ r ∈ (h.view k).rows, r.mpdu.ref ∈ (h.view k).rows.map (·.mpdu.ref) := fun r hr =>
    List.mem_map.mpr ⟨r, hr, rfl⟩
  have hsn : ∀ r ∈ (h.view k).rows, (s.node r.mpdu.ref).sn = r.sn := fun r hr =>
    (hrep.mpdu_met hr).2
  have hnear := horder.near
  have hsorted := horder.sorted
  rw [hctl] at hlast hchain hamsdu hwin
  rw [congrArg BaCtl.last hctl] at hnear hsorted
  refine ⟨hwin, hchain, hamsdu, fun r hr => ?_, ⟨hlast, fun r hr => ?_, fun r hr => ?_, ?_⟩,
    List.isChain_nil, fun d hd => absurd hd (Option.not_mem_none d)⟩
  · have hlinked := (hrows r hr).linked
    rw [hlone _ (hmem r hr)] at hlinked
    exact List.map_eq_nil_iff.mp (hlinked.unique (linked_nil.mpr rfl))
  · exact htidy.sns _ (List.mem_map_of_mem hr)
  · rw [← hsn r hr]
    exact hnear _ (hmem r hr)
  · rw [List.pairwise_map] at hsorted
    refine hsorted.imp_of_mem fun {r r'} hr hr' hlt => ?_
    rw [hsn r hr, hsn r' hr'] at hlt
    exact hlt

/-- An entry with an open window, before its first frame or without
    A-MSDUs. -/
structure Starts (s : BaState) (k : BaKey) : Prop where
  win : 1 ≤ (s.entry k).win ∧ (s.entry k).win ≤ 511
  phase : (s.entry k).state = 3 ∨ (s.entry k).state = 4 ∧ Plain s k

theorem Starts.delivers (h' : Starts s k) (hrep : Rep s h hand) (htidy : (h.view k).Tidy) :
    (h.view k).Delivers [] := by
  have hctl := (hrep.entry k).ctl
  have hstate : (s.entry k).state = (h.view k).state := congrArg BaCtl.state hctl
  rcases h'.phase with hwait | ⟨hopen, hplain⟩
  · rw [hstate] at hwait
    have hwin := h'.win
    rw [hctl] at hwin
    exact .inl ⟨hwait, hwin, htidy.waits hwait, rfl⟩
  · exact .inr ⟨hstate.symm.trans hopen, hplain.flows hrep htidy h'.win⟩

/-! ## Runs -/

/-- Frames of the entry without A-MSDUs and with the debug bit clear that
    are not taken for a restarted peer's, and timeouts and flushes of it. -/
def OfEntry (k : BaKey) (s : BaState) : BaAction → Prop
  | .frame flags pn band =>
      let t := kiteArrival s k pn band
      frameKey flags pn band = k ∧ pn.wcid ≠ 0 ∧ pn.amsdu = 0 ∧ flags.fast = false ∧
        (t.2 = .behind → ¬peerRestarted (t.1.entry k).win (t.1.entry k).last pn.sn)
  | .timeout k' _ _ => k' = k
  | .flush k' => k' = k
  | _ => False

/-- One entry's frames, timeouts and flushes from `s0` on. -/
def deliverySystem (ids : Finset ℕ) (k : BaKey) (s0 : BaState) : StepSystem BaState BaAction where
  init := fun s => s = s0
  step := fun s a t => OfEntry k s a ∧ (baSystem.guarded (idGuard ids)).step s a t

/-- What a run has handed over since `s0`. -/
structure Delivering (ids : Finset ℕ) (k : BaKey) (s0 s : BaState) (h : HeldState)
    (lost : Multiset NodeRef) (ys : List Out) : Prop where
  inv : NodesInv ids s h lost
  outs : s.outs = s0.outs ++ ys
  view : (h.view k).Delivers (numbersOf k ys)

/-- A step that is an operation on the entry's view. -/
theorem Delivering.next {f : View → Move} (hd : Delivering ids k s0 s h lost ys)
    (hinv : ∃ h' lost', NodesInv ids t h' lost') (hrep : Rep t (h.app k f) hand)
    (hview : (f (h.view k)).view.Delivers (numbersOf k ys ++ numbersOf k (f (h.view k)).outs)) :
    ∃ h' lost' ys', Delivering ids k s0 t h' lost' ys' := by
  obtain ⟨h', lost', hinv'⟩ := hinv
  obtain rfl : h.app k f = h' := hrep.unique hinv'.rep
  refine ⟨_, lost', ys ++ (f (h.view k)).outs, hinv', ?_, ?_⟩
  · rw [hrep.outs, ← List.append_assoc, ← hd.outs, hd.inv.rep.outs]
    rfl
  · rw [HeldState.app_view_self, numbersOf_append]
    exact hview

/-- A frame goes through the classifier and its branch; if it is to be
    held, a node is there for it. -/
theorem Delivering.frame {flags : RxFlags} (hd : Delivering ids k s0 s h lost ys)
    (hids : ids.card ≤ 5600) (hsn : pn.sn < 4096) (hpn : FreshId ids s pn)
    (hentry : OfEntry k s (.frame flags pn band))
    (hinv : ∃ h' lost', NodesInv ids (kiteClassifyPn s flags pn band).1 h' lost') :
    ∃ h' lost' ys',
      Delivering ids k s0 (kiteClassifyPn s flags pn band).1 h' lost' ys' := by
  obtain ⟨hkey, hwcid, hamsdu, hfast, hrestart⟩ := hentry
  have hstate : (s.entry k).state ≠ 0 := by
    rw [congrArg BaCtl.state (hd.inv.rep.entry k).ctl]
    rcases hd.view with ⟨hwait, -⟩ | ⟨hopen, -⟩ <;> omega
  have hclassify : (kiteClassifyPn s flags pn band).1 =
      kiteTake (kiteArrival s k pn band).1 k flags pn band (kiteArrival s k pn band).2 := by
    unfold frameKey at hkey
    unfold kiteClassifyPn
    rw [if_neg hwcid]
    dsimp only
    rw [hkey, if_neg hstate, kiteReorder_eq]
  rw [hclassify] at hinv ⊢
  obtain ⟨hrep, hst⟩ := hd.inv.rep.arrive (k := k) pn band
  obtain ⟨hopen, hflows⟩ := hd.view.arrive (k := k) hsn hamsdu band
  have hctl := (hrep.entry k).ctl
  rw [HeldState.app_view_self] at hctl
  -- the frame finds a node
  obtain ⟨h', hrep', hreleased⟩ := (sheds_arrival s k pn band).rep hd.inv.rep
  obtain ⟨node, t, halloc, -⟩ := (hd.inv.sheds hrep' hreleased).taken hids
    (hpn.released hd.inv hrep' hreleased) 0
  have hchains : ((h.app k (View.arrive k pn band)).view k).Chains := by
    intro sub hsub
    rw [HeldState.app_view_self, hflows.chain] at hsub
    cases hsub
  have htake := hrep.take hchains flags pn band (kiteArrival s k pn band).2
  rw [halloc, HeldState.app_app] at htake
  refine hd.next hinv htake ?_
  rw [Move.andThen, numbersOf_append, ← List.append_assoc]
  refine .inr ⟨(View.take_state ..).trans hopen, hflows.take hsn hamsdu hfast hst ?_ node⟩
  rw [← congrArg BaCtl.win hctl, ← congrArg BaCtl.last hctl]
  exact hrestart

/-- One step of the entry. -/
theorem Delivering.step {a : BaAction} (hd : Delivering ids k s0 s h lost ys)
    (hids : ids.card ≤ 5600) (hstep : (deliverySystem ids k s0).step s a t) :
    ∃ h' lost' ys', Delivering ids k s0 t h' lost' ys' := by
  obtain ⟨hentry, hstep⟩ := hstep
  have hinv := (hd.inv.stepped hids hstep).inv
  obtain ⟨hguard, hstep⟩ := hstep
  cases a with
  | frame flags pn band =>
    obtain ⟨hsn, -, rfl⟩ := hstep
    exact hd.frame hids hsn hguard hentry hinv
  | timeout k' now limit =>
    obtain rfl : k' = k := hentry
    obtain rfl := hstep
    exact hd.next hinv (hd.inv.rep.timeout k' now limit nodeFuel) (hd.view.timeout ..)
  | flush k' =>
    obtain rfl : k' = k := hentry
    obtain rfl := hstep
    exact hd.next hinv (hd.inv.rep.flush k') hd.view.flush
  | bar => cases hentry
  | setBa => cases hentry
  | reset => cases hentry

theorem delivering_of_reachable (hids : ids.card ≤ 5600)
    (hreach : (baSystem.guarded (idGuard ids)).Reachable s0) (hstart : Starts s0 k)
    (hrun : (deliverySystem ids k s0).Reachable s) :
    ∃ h lost ys, Delivering ids k s0 s h lost ys := by
  induction hrun with
  | init hinit =>
    obtain rfl := hinit
    obtain ⟨h, lost, hinv⟩ := nodesInv_of_reachable hids hreach
    obtain ⟨h', lost', hchaining, htidy⟩ := tidy_of_reachable hreach.of_guarded
    obtain rfl : h = h' := hinv.rep.unique hchaining.rep
    exact ⟨h, lost, [], hinv, (List.append_nil _).symm, hstart.delivers hinv.rep (htidy k)⟩
  | step a _ hstep ih =>
    obtain ⟨h, lost, ys, hd⟩ := ih
    exact hd.step hids hstep

theorem reachable_mono {ids' : Finset ℕ} (hsub : ids ⊆ ids')
    (hreach : (baSystem.guarded (idGuard ids)).Reachable s) :
    (baSystem.guarded (idGuard ids')).Reachable s := by
  induction hreach with
  | init hinit => exact .init hinit
  | step a _ hstep ih =>
    refine .step a ih ⟨?_, hstep.2⟩
    cases a with
    | frame => exact ⟨hsub hstep.1.1, hstep.1.2⟩
    | timeout => trivial
    | bar => trivial
    | setBa => trivial
    | reset => trivial
    | flush => trivial

/-- A buffer the run has not seen is in no node. -/
theorem freshId_of_reachable {ids' : Finset ℕ} (hids : ids.card ≤ 5600)
    (hreach : (baSystem.guarded (idGuard ids)).Reachable s) (hmem : pn.bufId ∈ ids')
    (hnew : pn.bufId ∉ ids) : FreshId ids' s pn := by
  obtain ⟨h, lost, hinv⟩ := nodesInv_of_reachable hids hreach
  refine ⟨hmem, fun x hx heq => hnew ?_⟩
  rw [← heq]
  exact hinv.carried.known x hx

theorem reachable_arrives_fresh (hids : ids.card ≤ 5600)
    (hreach : (baSystem.guarded (idGuard ids)).Reachable s) (sn amsdu bufId : ℕ)
    (hsn : sn < 4096) (hcode : amsdu ≤ 3) (hnew : bufId ∉ ids) :
    (baSystem.guarded (idGuard (insert bufId ids))).Reachable (s.arrives sn amsdu bufId) := by
  have hfresh : FreshId (insert bufId ids) s (subframe sn amsdu bufId) :=
    freshId_of_reachable hids hreach (Finset.mem_insert_self ..) hnew
  exact .step (.frame noFlags (subframe sn amsdu bufId) 0)
    (reachable_mono (Finset.subset_insert ..) hreach) ⟨hfresh, hsn, hcode, rfl⟩

theorem delivery_arrives {ids' : Finset ℕ} {sn bufId : ℕ}
    (hrun : (deliverySystem ids' key1 s0).Reachable s) (hids : ids.card ≤ 5600)
    (hreach : (baSystem.guarded (idGuard ids)).Reachable s) (hsn : sn < 4096)
    (hmem : bufId ∈ ids') (hnew : bufId ∉ ids)
    (hnear : (kiteArrival s key1 (subframe sn 0 bufId) 0).2 ≠ .behind) :
    (deliverySystem ids' key1 s0).Reachable (s.arrives sn 0 bufId) := by
  refine .step (.frame noFlags (subframe sn 0 bufId) 0) hrun ⟨?_, ?_⟩
  · exact ⟨rfl, Nat.one_ne_zero, rfl, rfl, fun hst => absurd hst hnear⟩
  · exact ⟨freshId_of_reachable hids hreach hmem hnew, hsn, Nat.zero_le 3, rfl⟩

theorem addba100_reachable : (baSystem.guarded (idGuard ∅)).Reachable addba100 :=
  .step (.setBa key1 0 64 101) (.init window100_init) ⟨trivial, rfl⟩

end ClankerNPU.Kite
