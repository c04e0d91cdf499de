import ClankerNPU.Kite.Moored

/-! # The chain pointer over whole runs

    Frames, timeouts, mails and flushes of all entries in any order, each
    atomic. In a run whose frames start no chain in front of held numbers
    more than half the number space behind theirs, `entry[3]` names a held
    MPDU of the frame's number whenever a frame is chained to it. -/

open LinkedList

namespace ClankerNPU.Kite

/-! ## The system -/

inductive BaAction where
  | frame (flags : RxFlags) (pn : KiteFrame) (band : ℕ)
  | timeout (k : BaKey) (now limit : ℕ)
  | bar (k : BaKey) (ssn : ℕ)
  | setBa (k : BaKey) (band winSize ssn : ℕ)
  | reset (k : BaKey) (dir : ℕ)
  | flush (k : BaKey)

/-- Parsed frames have numbers of 12 bits and A-MSDU codes of 2, BAR mails
    numbers of 13 bits. Nothing is held at the start. -/
def baSystem : StepSystem BaState BaAction where
  init := fun s => ∃ h, Rep s h 0 ∧
    ∀ k, (h.view k).rows = [] ∧ (h.view k).chain = none ∧ (h.view k).ref < 4096
  step := fun s a s' =>
    match a with
    | .frame flags pn band =>
      pn.sn < 4096 ∧ pn.amsdu ≤ 3 ∧ s' = (kiteClassifyPn s flags pn band).1
    | .timeout k now limit => s' = baTimeoutEntry s k now limit
    | .bar k ssn => ssn < 8192 ∧ s' = npuSetBarInfo s k ssn
    | .setBa k band winSize ssn => s' = npuSetBaEntry s k band winSize ssn
    | .reset k dir => s' = wifiResetBaEntry s k dir
    | .flush k => s' = baFlushEntry s k

/-- The entry of a frame. -/
def frameKey (flags : RxFlags) (pn : KiteFrame) (band : ℕ) : BaKey :=
  baKey flags.dbdc band pn.wcid pn.tid

/-- Whatever frame comes next, if it is chained to a node, that is an MPDU
    in its entry's list and has its number. -/
def ChainSafe (s : BaState) : Prop :=
  ∀ flags pn band, pn.sn < 4096 → pn.amsdu ≤ 3 → pn.wcid ≠ 0 →
    let k := frameKey flags pn band
    let t := (kiteArrival s k pn band).1
    (s.entry k).state ≠ 0 → (kiteArrival s k pn band).2 = .inside →
      ∀ sub, (t.entry k).chain = some sub →
        Meets (fun x => (t.node x).next) (t.entry k).head sub ∧ (t.node sub).sn = pn.sn

/-- The numbers an entry holds, in the order of its list. -/
def heldNumbers (s : BaState) (k : BaKey) : List ℕ :=
  (walk (fun x => (s.node x).next) nodeFuel (s.entry k).head).map fun x => (s.node x).sn

/-- A frame of an A-MSDU with more to come that does not go on with the
    chain there is finds no held number astray, from the first one on that
    is not behind its own. -/
def chainGuard (s : BaState) : BaAction → Prop
  | .frame flags pn band =>
    let k := frameKey flags pn band
    2 ≤ pn.amsdu → pn.wcid ≠ 0 → (s.entry k).state ≠ 3 →
      ((s.entry k).chain = none ∨ (s.entry k).ref ≠ pn.sn ∨ pn.amsdu = 3) →
        ∀ x ∈ (heldNumbers s k).dropWhile (fun x : ℕ => bit11 ((x : ℤ) - pn.sn)), ¬Astray pn.sn x
  | _ => True

/-! ## The invariant -/

variable {s s' : BaState} {h : HeldState} {k : BaKey} {pn : KiteFrame} {flags : RxFlags} {band : ℕ}

theorem Rep.heldNumbers_eq {hand : Multiset NodeRef} (hrep : Rep s h hand) (k : BaKey) :
    heldNumbers s k = (h.view k).rows.map Row.sn := by
  have hlen := hrep.length_rows_lt k
  unfold heldNumbers
  rw [(hrep.entry k).list.walk_eq (by rw [List.length_map]; omega), List.map_map]
  refine List.map_congr_left fun r hr => ?_
  exact (hrep.mpdu_met hr).2

/-- Every entry is anchored. -/
def AllAnchored (s : BaState) : Prop := ∃ h, Rep s h 0 ∧ ∀ k, (h.view k).Anchored

/-- An entry that holds nothing is anchored. -/
theorem allAnchored_init (hrep : Rep s h 0)
    (hnothing : ∀ k, (h.view k).rows = [] ∧ (h.view k).chain = none ∧ (h.view k).ref < 4096) :
    AllAnchored s := by
  refine ⟨h, hrep, fun k => ?_⟩
  obtain ⟨hrows, hchain, href⟩ := hnothing k
  refine .unchained (fun r hr => ?_) href hchain
  rw [hrows] at hr
  cases hr

theorem allAnchored_move {m : Move} (hall : ∀ k, (h.view k).Anchored)
    (hrep : Rep s' (h.set k m) 0) (hm : m.view.Anchored) : AllAnchored s' := by
  refine ⟨_, hrep, fun k' => ?_⟩
  by_cases hk : k' = k
  · subst hk
    rw [HeldState.set_view_self]
    exact hm
  · rw [HeldState.set_view_of_ne hk]
    exact hall k'

/-- An entry emptied by a flush. -/
theorem allAnchored_flush (hrep : Rep s h 0) (hall : ∀ k, (h.view k).Anchored) (k : BaKey)
    {c : BaCtl} (hchain : c.chain = none) (href : c.ref < 4096) :
    AllAnchored ((baFlushEntry s k).setCtl k c) := by
  have hend := (hrep.flush k).setCtl k c
  unfold HeldState.app at hend
  rw [HeldState.set_set, HeldState.set_view_self] at hend
  exact allAnchored_move hall hend (.unchained nofun href hchain)

/-- A frame that is chained is chained to the MPDU of its number. -/
theorem chainSafe_of_anchored (hall : AllAnchored s) : ChainSafe s := by
  obtain ⟨h, hrep, hall⟩ := hall
  intro flags pn band hsn hcode hwcid k t hstate hinside sub hsub
  obtain ⟨hrep', hst⟩ := hrep.arrive (k := k) pn band
  have harr := (hall k).arrive (k := k) hsn band
  have hview : (h.app k (View.arrive k pn band)).view k = ((h.view k).arrive k pn band).view :=
    HeldState.app_view_self
  have hchain : ((h.view k).arrive k pn band).view.chain = some sub := by
    rw [← hview, ← hsub]
    exact (congrArg BaCtl.chain (hrep'.entry k).ctl).symm
  rw [hinside] at hst
  obtain ⟨before, r, after, hrows, rfl, hr, -⟩ := harr.anchored.inside hsn hchain
    (harr.number (by rw [hchain]; simp)) hst
  have hmem : r ∈ ((h.app k (View.arrive k pn band)).view k).rows := by
    rw [hview, hrows]
    exact List.mem_append_right _ List.mem_cons_self
  obtain ⟨hmet, hnode⟩ := hrep'.mpdu_met hmem
  exact ⟨hmet, hnode.trans hr⟩

/-- A branch on the heap and in the view, when a chain that is wanted is
    held. -/
theorem Rep.take_inside {st : Standing} (hrep : Rep s h 0)
    (hchains : st = .inside → (h.view k).Chains) (flags : RxFlags) (pn : KiteFrame) (band : ℕ) :
    Rep (kiteTake s k flags pn band st)
      (h.app k (View.take k flags ((reorderNodeAlloc s).map Prod.fst) pn band st)) 0 := by
  cases st with
  | inOrder => exact hrep.inOrder
  | duplicate => exact hrep.duplicate flags.fast
  | behind => exact hrep.behind flags.fast
  | inside => exact hrep.hold (hchains rfl) flags.tick

/-- The guard, on the rows left in front of the branches. -/
theorem clear_of_guard {w : View} (hrep : Rep s h 0) (harr : Arrived (h.view k) w pn)
    (hwcid : pn.wcid ≠ 0) (hk : frameKey flags pn band = k)
    (hguard : chainGuard s (.frame flags pn band)) (hchain : w.chain = none) : w.Clear pn := by
  intro hmore b hb
  have hctl := (hrep.entry k).ctl
  by_cases hstate : (h.view k).state = 3
  · have hnil : b ∈ w.rows := (List.dropWhile_suffix _).subset hb
    rw [harr.opened hstate] at hnil
    cases hnil
  · unfold chainGuard at hguard
    simp only [hk] at hguard
    have hnot : ¬(s.entry k).state = 3 := by
      rw [show (s.entry k).state = (h.view k).state from congrArg BaCtl.state hctl]
      exact hstate
    have hopen : (s.entry k).chain = none ∨ (s.entry k).ref ≠ pn.sn ∨ pn.amsdu = 3 := by
      rw [show (s.entry k).chain = (h.view k).chain from congrArg BaCtl.chain hctl,
        show (s.entry k).ref = (h.view k).ref from congrArg BaCtl.ref hctl]
      exact harr.unchained hchain hstate
    have hclear := hguard hmore hwcid hnot hopen
    rw [hrep.heldNumbers_eq k, List.dropWhile_map] at hclear
    refine hclear b.sn (List.mem_map.mpr ⟨b, ?_, rfl⟩)
    -- dropping from a suffix leaves no more than dropping from the list
    obtain ⟨gone, hgone⟩ := harr.rows hstate
    have hafter : b ∈ w.rows.dropWhile fun r => bit11 ((r.sn : ℤ) - pn.sn) := hb
    rw [← hgone, List.dropWhile_append]
    split
    · exact hafter
    · exact List.mem_append_right _ ((List.dropWhile_suffix _).subset hafter)

theorem allAnchored_frame (hall : AllAnchored s) (hsn : pn.sn < 4096) (hcode : pn.amsdu ≤ 3)
    (hguard : chainGuard s (.frame flags pn band)) :
    AllAnchored (kiteClassifyPn s flags pn band).1 := by
  obtain ⟨h, hrep, hall⟩ := hall
  unfold kiteClassifyPn
  split
  · have hemit := hrep.emit key1 (.free band pn.bufId)
    exact allAnchored_move hall hemit (hall key1)
  · next hwcid =>
    simp only
    set k := baKey flags.dbdc band pn.wcid pn.tid with hk
    split
    · have hflush := hrep.flush k
      exact allAnchored_move hall hflush (.unchained nofun (hall k).ref rfl)
    · obtain ⟨hrep', hst⟩ := hrep.arrive (k := k) pn band
      have harr := (hall k).arrive (k := k) hsn band
      have hview : (h.app k (View.arrive k pn band)).view k =
          ((h.view k).arrive k pn band).view := HeldState.app_view_self
      set w := ((h.view k).arrive k pn band).view with hw
      have hchains : (kiteArrival s k pn band).2 = .inside →
          ((h.app k (View.arrive k pn band)).view k).Chains := by
        intro hinside sub hsub
        rw [hview] at hsub ⊢
        obtain ⟨before, r, after, hrows, href, -, -⟩ := harr.anchored.inside hsn hsub
          (harr.number (by rw [hsub]; simp)) (hinside ▸ hst)
        exact ⟨before, r, after, hrows, href⟩
      have hend := hrep'.take_inside hchains flags pn band
      rw [HeldState.app_app] at hend
      refine allAnchored_move hall hend ?_
      have hnodup : w.refs.Nodup := hview ▸ hrep'.nodup_refs k
      exact harr.anchored.take hsn hcode harr.number hst hnodup
        fun hchain => clear_of_guard hrep harr hwcid rfl hguard hchain

theorem allAnchored_bar (hall : AllAnchored s) {ssn : ℕ} :
    AllAnchored (npuSetBarInfo s k ssn) := by
  obtain ⟨h, hrep, hall⟩ := hall
  obtain ⟨hanch, hnumber, hsuffix, -⟩ := (hall k).stateUpdate (k := k) ssn 3
  have hupdate := hrep.stateUpdate k ssn 3
  -- a BAR is no frame of the A-MSDU, so it ends the chain
  have hchain : ((h.view k).stateUpdate k ssn 3).view.chain = none := by
    by_contra hne
    exact (hnumber hne).2 rfl
  unfold npuSetBarInfo
  simp only
  set w := ((h.view k).stateUpdate k ssn 3).view with hw
  split
  · set seq := if ssn ≠ 0 then ssn - 1 else 4095
    have hadv := hupdate.advance k seq
    rw [HeldState.app_app] at hadv
    refine allAnchored_move hall hadv ?_
    have hctl := (lets_advance k seq w).ctl
    obtain ⟨gone, hrows, -⟩ := (lets_advance k seq w).rows
    refine .unchained (fun r hr => hanch.sns r ?_) ?_ ?_
    · rw [← hrows]
      exact List.mem_append_right _ hr
    · show (w.advance k seq).view.ref < 4096
      rw [hctl]
      exact hanch.ref
    · show (w.advance k seq).view.chain = none
      rw [hctl]
      exact hchain
  · exact allAnchored_move hall hupdate hanch

theorem allAnchored_step {a : BaAction} (hall : AllAnchored s) (hguard : chainGuard s a)
    (hstep : baSystem.step s a s') : AllAnchored s' := by
  cases a with
  | frame flags pn band =>
    obtain ⟨hsn, hcode, rfl⟩ := hstep
    exact allAnchored_frame hall hsn hcode hguard
  | timeout k now limit =>
    obtain rfl := hstep
    obtain ⟨h, hrep, hall⟩ := hall
    exact allAnchored_move hall (hrep.timeout k now limit nodeFuel)
      ((hall k).timeout now limit nodeFuel)
  | bar k ssn =>
    obtain ⟨-, rfl⟩ := hstep
    exact allAnchored_bar hall
  | setBa k band winSize ssn =>
    obtain rfl := hstep
    obtain ⟨h, hrep, hall⟩ := hall
    have hctl := ((hrep.flush k).entry k).ctl
    rw [HeldState.app_view_self] at hctl
    unfold npuSetBaEntry
    simp only
    split
    · exact allAnchored_flush hrep hall k (by rw [hctl]; rfl) (Nat.zero_lt_succ _)
    · exact allAnchored_flush hrep hall k (by rw [hctl]; rfl) (by rw [hctl]; exact (hall k).ref)
  | reset k dir =>
    obtain rfl := hstep
    obtain ⟨h, hrep, hall⟩ := hall
    have hctl := ((hrep.flush k).entry k).ctl
    rw [HeldState.app_view_self] at hctl
    exact allAnchored_flush hrep hall k (by rw [hctl]; rfl) (Nat.zero_lt_succ _)
  | flush k =>
    obtain rfl := hstep
    obtain ⟨h, hrep, hall⟩ := hall
    exact allAnchored_move hall (hrep.flush k) (.unchained nofun (hall k).ref rfl)

/-- In every run whose frames meet the guard, no frame is ever chained to
    a node that is not a held MPDU of its number. -/
theorem chain_safe_guarded (hreach : (baSystem.guarded chainGuard).Reachable s) : ChainSafe s := by
  have hall : AllAnchored s := by
    refine hreach.invariant ?_ ?_
    · rintro s ⟨h, hrep, hnothing⟩
      exact allAnchored_init hrep hnothing
    · rintro s a s' hall ⟨hguard, hstep⟩
      exact allAnchored_step hall hguard hstep
  exact chainSafe_of_anchored hall

theorem window100_init : baSystem.init window100 :=
  ⟨nothingHeld, rep_window100, fun _ => ⟨rfl, rfl, show 99 < 4096 by decide⟩⟩

/-- The first subframe of an A-MSDU is held, and its chain is safe. -/
theorem chain_safe_guarded_first :
    ((window100.arrives 105 3 7).entry key1).chain = some ⟨.pri, 0⟩ ∧
      ChainSafe (window100.arrives 105 3 7) := by
  refine ⟨by decide +kernel, chain_safe_guarded (.step (.frame noFlags (subframe 105 3 7) 0)
    (.init window100_init) ⟨?_, by decide, by decide, rfl⟩)⟩
  have hempty : heldNumbers window100 (frameKey noFlags (subframe 105 3 7) 0) = [] := by
    decide +kernel
  intro _ _ _ _ x hx
  rw [hempty] at hx
  cases hx

theorem reachable_arrives (h : baSystem.Reachable s) (sn amsdu bufId : ℕ) (hsn : sn < 4096)
    (hcode : amsdu ≤ 3) : baSystem.Reachable (s.arrives sn amsdu bufId) :=
  .step (.frame noFlags (subframe sn amsdu bufId) 0) h ⟨hsn, hcode, rfl⟩

theorem reachable_timeout {k : BaKey} (h : baSystem.Reachable s) (now limit : ℕ) :
    baSystem.Reachable (baTimeoutEntry s k now limit) :=
  .step (.timeout k now limit) h rfl

theorem reachable_staleChain : baSystem.Reachable staleChain := by
  have h1 := reachable_arrives (.init window100_init) 4088 0 1 (by decide) (by decide)
  have h2 := reachable_arrives h1 4090 0 2 (by decide) (by decide)
  have h3 := reachable_arrives h2 2998 0 3 (by decide) (by decide)
  have h4 := reachable_arrives h3 3000 0 4 (by decide) (by decide)
  have h5 := reachable_arrives h4 1498 0 5 (by decide) (by decide)
  have h6 := reachable_arrives h5 1500 0 6 (by decide) (by decide)
  have h7 := reachable_arrives h6 3 0 7 (by decide) (by decide)
  have h8 := reachable_arrives h7 5 3 8 (by decide) (by decide)
  unfold staleChain
  exact reachable_timeout h8 100 10

/-- In the run of `staleChain` the next subframe would be chained to a
    freed node. -/
theorem chain_dangles : ∃ s, baSystem.Reachable s ∧ ¬ChainSafe s := by
  refine ⟨staleChain, reachable_staleChain, fun hsafe => ?_⟩
  have hstate : (staleChain.entry (frameKey noFlags (subframe 5 2 9) 0)).state ≠ 0 := by
    decide +kernel
  have hinside : (kiteArrival staleChain (frameKey noFlags (subframe 5 2 9) 0)
      (subframe 5 2 9) 0).2 = .inside := by
    decide +kernel
  have hsome : ((kiteArrival staleChain (frameKey noFlags (subframe 5 2 9) 0)
      (subframe 5 2 9) 0).1.entry (frameKey noFlags (subframe 5 2 9) 0)).chain ≠ none := by
    decide +kernel
  have hhead : ((kiteArrival staleChain (frameKey noFlags (subframe 5 2 9) 0)
      (subframe 5 2 9) 0).1.entry (frameKey noFlags (subframe 5 2 9) 0)).head = none := by
    decide +kernel
  obtain ⟨sub, hsub⟩ := Option.ne_none_iff_exists'.mp hsome
  obtain ⟨hmet, -⟩ := hsafe noFlags (subframe 5 2 9) 0 (by decide) (by decide) (by decide) hstate
    hinside sub hsub
  rw [hhead] at hmet
  cases hmet

end ClankerNPU.Kite
