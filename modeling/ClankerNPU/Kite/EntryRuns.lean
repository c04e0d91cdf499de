import ClankerNPU.Kite.Opening
import ClankerNPU.Kite.Orderly

/-! # One entry from its ADDBA on

    Frames, timeouts, flushes and mails of all entries in any order. What
    a step does to an entry's words and numbers is what the operation of
    that name does to its view, also when a chain is lost. From an ADDBA
    on, with no restart of the peer that leaves a held number behind, the
    list of the entry stays in order. -/

open LinkedList

namespace ClankerNPU.Kite

variable {s t : BaState} {h : HeldState} {lost : Multiset NodeRef} {k : BaKey} {pn : KiteFrame}
  {w : View}

/-! ## Steps on the heap -/

theorem Rep.barInfo (hrep : Rep s h lost) (ssn : ℕ) :
    Rep (npuSetBarInfo s k ssn) (h.app k (View.barInfo k ssn)) lost := by
  have hupdate := hrep.stateUpdate k ssn 3
  have hlast : ((baStateUpdate s k ssn 3).entry k).last =
      ((h.view k).stateUpdate k ssn 3).view.last := by
    have hctl := (hupdate.entry k).ctl
    rw [HeldState.app_view_self] at hctl
    exact congrArg BaCtl.last hctl
  unfold npuSetBarInfo
  dsimp only
  rw [hlast]
  by_cases hahead : bit11 ((((h.view k).stateUpdate k ssn 3).view.last : ℤ) - ssn)
  · have hadv := hupdate.advance k (if ssn ≠ 0 then ssn - 1 else 4095)
    rw [HeldState.app_app] at hadv
    rw [if_pos hahead]
    unfold HeldState.app View.barInfo
    unfold HeldState.app at hadv
    have hmove : ((h.view k).stateUpdate k ssn 3).andThen (fun v =>
        if bit11 ((v.last : ℤ) - ssn) then v.advance k (if ssn ≠ 0 then ssn - 1 else 4095)
        else ⟨v, []⟩) = ((h.view k).stateUpdate k ssn 3).andThen
          (View.advance k (if ssn ≠ 0 then ssn - 1 else 4095)) := by
      unfold Move.andThen
      dsimp only
      rw [if_pos hahead]
    rw [hmove]
    exact hadv
  · rw [if_neg hahead]
    unfold HeldState.app View.barInfo Move.andThen
    dsimp only
    rw [if_neg hahead, List.append_nil]
    exact hupdate

theorem Rep.setBaEntry (hrep : Rep s h lost) (band winSize ssn : ℕ) :
    Rep (npuSetBaEntry s k band winSize ssn) (h.app k (View.setBaEntry k band winSize ssn)) lost := by
  have hflush := hrep.flush k
  have hctl := (hflush.entry k).ctl
  unfold npuSetBaEntry
  dsimp only
  rw [hctl]
  unfold HeldState.app View.setBaEntry Move.andThen
  dsimp only
  by_cases hdel : winSize = 0 ∧ ssn = 0
  · have hend := hflush.setCtl k (((h.app k (View.flush k)).view k).toBaCtl.closed band)
    unfold HeldState.app at hend
    rw [HeldState.set_set] at hend
    rw [if_pos hdel, if_pos hdel]
    simp only [HeldState.set_view_self] at hend ⊢
    exact hend
  · have hend := hflush.setCtl k { ((h.app k (View.flush k)).view k).toBaCtl with
      win := winSize, last := ssn, band := band, state := 3 }
    unfold HeldState.app at hend
    rw [HeldState.set_set] at hend
    rw [if_neg hdel, if_neg hdel]
    simp only [HeldState.set_view_self] at hend ⊢
    exact hend

theorem Rep.resetBaEntry (hrep : Rep s h lost) (dir : ℕ) :
    Rep (wifiResetBaEntry s k dir) (h.app k (View.resetBaEntry k dir)) lost := by
  have hflush := hrep.flush k
  have hend := hflush.setCtl k (((h.app k (View.flush k)).view k).toBaCtl.closed dir)
  unfold HeldState.app at hend
  rw [HeldState.set_set] at hend
  unfold wifiResetBaEntry
  dsimp only
  rw [(hflush.entry k).ctl]
  unfold HeldState.app View.resetBaEntry Move.andThen
  simp only [HeldState.set_view_self] at hend ⊢
  exact hend

/-- What a step may do to the words and numbers of entry `k`. -/
inductive EntryMove (k : BaKey) : BaAction → View → View → Prop
  | same {a : BaAction} {v w : View} : SameNumbers w v → EntryMove k a v w
  | flush {a : BaAction} {v : View} : EntryMove k a v (v.flush k).view
  | timeout {now limit : ℕ} {v : View} :
      EntryMove k (.timeout k now limit) v (View.timeout k now limit nodeFuel v).view
  | bar {ssn : ℕ} {v : View} : EntryMove k (.bar k ssn) v (v.barInfo k ssn).view
  | setBa {band winSize ssn : ℕ} {v : View} :
      EntryMove k (.setBa k band winSize ssn) v (v.setBaEntry k band winSize ssn).view
  | reset {dir : ℕ} {v : View} : EntryMove k (.reset k dir) v (v.resetBaEntry k dir).view
  | frame {flags : RxFlags} {pn : KiteFrame} {band : ℕ} {fresh : Option NodeRef} {st : Standing}
      {v w : View} : pn.sn < 4096 → frameKey flags pn band = k → pn.wcid ≠ 0 →
        (v.arrive k pn band).view.standing pn.sn = some st →
          SameNumbers w (View.take k flags fresh pn band st (v.arrive k pn band).view).view →
            EntryMove k (.frame flags pn band) v w

/-- A step, and what it does to every entry. -/
def Stepping (t : BaState) (h : HeldState) (a : BaAction) : Prop :=
  ∃ h' lost', Chaining t h' lost' ∧ ∀ k, EntryMove k a (h.view k) (h'.view k)

theorem Chaining.stepping {a : BaAction} {f : View → Move} (hinv : Chaining s h lost)
    (hsheds : Sheds k s t) (hrep : Rep t (h.app k f) lost)
    (hmove : EntryMove k a (h.view k) (f (h.view k)).view) : Stepping t h a := by
  refine ⟨_, lost, hinv.after hsheds hrep, fun k' => ?_⟩
  by_cases hk : k' = k
  · subst hk
    rw [HeldState.app_view_self]
    exact hmove
  · unfold HeldState.app
    rw [HeldState.set_view_of_ne hk]
    exact .same ⟨rfl, rfl⟩

/-- A frame is held, or dropped for want of a node. -/
theorem Chaining.holds (hinv : Chaining s h lost) (pn : KiteFrame) (k : BaKey) (tick : ℕ) :
    ∃ h' lost' fresh, Chaining (kiteHold s k pn tick) h' lost' ∧
      ∀ k', SameNumbers (h'.view k') ((h.app k (View.hold fresh pn tick)).view k') := by
  cases halloc : reorderNodeAlloc s with
  | none =>
    have hhold : kiteHold s k pn tick = s := by
      unfold kiteHold
      rw [halloc]
    rw [hhold]
    refine ⟨h, lost, none, hinv, fun k' => ?_⟩
    unfold HeldState.app View.hold
    rw [HeldState.set_same]
    exact ⟨rfl, rfl⟩
  | some x =>
    obtain ⟨node, t⟩ := x
    obtain ⟨h', lost', hplaced, hsame⟩ := hinv.hold halloc pn k tick
    exact ⟨h', lost', some node, hplaced.chaining, hsame⟩

theorem Chaining.stepping_frame (hinv : Chaining s h lost) (hsn : pn.sn < 4096)
    (flags : RxFlags) (band : ℕ) :
    Stepping (kiteClassifyPn s flags pn band).1 h (.frame flags pn band) := by
  unfold kiteClassifyPn
  split
  · have hemit := hinv.rep.emit key1 (.free band pn.bufId)
    refine ⟨_, lost, hinv.after (k := key1) (.emit _ .refl) hemit, fun k => ?_⟩
    by_cases hk : k = key1
    · subst hk
      rw [HeldState.set_view_self]
      exact .same ⟨rfl, rfl⟩
    · rw [HeldState.set_view_of_ne hk]
      exact .same ⟨rfl, rfl⟩
  · next hwcid =>
    dsimp only
    set k := baKey flags.dbdc band pn.wcid pn.tid with hk
    split
    · exact hinv.stepping (sheds_flush s k) (hinv.rep.flush k) .flush
    · obtain ⟨hrep, hst⟩ := hinv.rep.arrive (k := k) pn band
      have hsheds := sheds_arrival s k pn band
      have harrived := hinv.after hsheds hrep
      have hmove : ∀ (fresh : Option NodeRef) {w : View}, SameNumbers w (View.take k flags fresh pn
          band (kiteArrival s k pn band).2 ((h.view k).arrive k pn band).view).view →
            EntryMove k (.frame flags pn band) (h.view k) w :=
        fun _ _ hsame => .frame hsn hk.symm hwcid hst hsame
      rw [kiteReorder_eq]
      cases hwhere : (kiteArrival s k pn band).2 with
      | inOrder =>
        rw [hwhere] at hmove
        have hend := @Rep.inOrder _ _ _ k pn hrep
        rw [HeldState.app_app] at hend
        rw [kiteTake]
        exact hinv.stepping (hsheds.trans (sheds_inOrder _ k pn)) hend
          (hmove none ⟨rfl, rfl⟩)
      | duplicate =>
        rw [hwhere] at hmove
        have hend := @Rep.duplicate _ _ _ k pn band hrep flags.fast
        rw [HeldState.app_app] at hend
        rw [kiteTake]
        refine hinv.stepping (hsheds.trans ?_) hend (hmove none ⟨rfl, rfl⟩)
        exact .ctl _ (.emit _ .refl) (chain_seen ..)
      | behind =>
        rw [hwhere] at hmove
        have hend := @Rep.behind _ _ _ k pn band hrep flags.fast
        rw [HeldState.app_app] at hend
        rw [kiteTake]
        exact hinv.stepping (hsheds.trans (sheds_behind _ k flags.fast pn band)) hend
          (hmove none ⟨rfl, rfl⟩)
      | inside =>
        rw [hwhere] at hmove
        obtain ⟨h', lost', fresh, hinv', hsame⟩ := harrived.holds pn k flags.tick
        rw [kiteTake]
        refine ⟨h', lost', hinv', fun k' => ?_⟩
        by_cases hk' : k' = k
        · have hsame' := hsame k
          rw [HeldState.app_app, HeldState.app_view_self] at hsame'
          rw [hk']
          exact hmove fresh hsame'
        · have hsame' := hsame k'
          unfold HeldState.app at hsame'
          rw [HeldState.set_view_of_ne hk', HeldState.set_view_of_ne hk'] at hsame'
          exact .same hsame'

theorem Chaining.step {a : BaAction} (hinv : Chaining s h lost) (hstep : baSystem.step s a t) :
    Stepping t h a := by
  cases a with
  | frame flags pn band =>
    obtain ⟨hsn, -, rfl⟩ := hstep
    exact hinv.stepping_frame hsn flags band
  | timeout k now limit =>
    obtain rfl := hstep
    exact hinv.stepping (sheds_timeout s k now limit) (hinv.rep.timeout k now limit nodeFuel)
      .timeout
  | bar k ssn =>
    obtain ⟨-, rfl⟩ := hstep
    exact hinv.stepping (sheds_bar s k ssn) (hinv.rep.barInfo ssn) .bar
  | setBa k band winSize ssn =>
    obtain rfl := hstep
    exact hinv.stepping (sheds_setBa s k band winSize ssn) (hinv.rep.setBaEntry band winSize ssn)
      .setBa
  | reset k dir =>
    obtain rfl := hstep
    refine hinv.stepping ?_ (hinv.rep.resetBaEntry dir) .reset
    exact .ctl _ (sheds_flush s k) (.inr rfl)
  | flush k =>
    obtain rfl := hstep
    exact hinv.stepping (sheds_flush s k) (hinv.rep.flush k) .flush

/-! ## Whole runs -/

/-- The list of an entry, as it should be. -/
structure ListOrdered (s : BaState) (k : BaKey) (l : List NodeRef) : Prop where
  linked : Linked (fun x => (s.node x).next) (s.entry k).head l
  acyclic : l.Nodup
  count : (s.entry k).count = l.length
  distinct : (l.map fun x => (s.node x).sn).Nodup
  sorted : l.Pairwise fun x y =>
    ahead (s.entry k).last (s.node x).sn < ahead (s.entry k).last (s.node y).sn
  near : ∀ x ∈ l, 2 ≤ ahead (s.entry k).last (s.node x).sn ∧
    ahead (s.entry k).last (s.node x).sn ≤ 2047

/-- The held list ends, `count` is its length, and its numbers are
    distinct, sorted by their distance from the last number and 2 to 2047
    ahead of it. -/
def EntryOrdered (s : BaState) (k : BaKey) : Prop := ∃ l, ListOrdered s k l

/-- The actions between an ADDBA of the entry `k` and its next: the other
    entries' actions, and on `k` frames, timeouts, flushes and BAR mails
    with numbers of 12 bits. -/
def SinceAddba (k : BaKey) : BaAction → Prop
  | .bar k' ssn => k' = k → ssn < 4096
  | .setBa k' _ _ _ => k' ≠ k
  | .reset k' _ => k' ≠ k
  | _ => True

/-- The entry `k` from an ADDBA with a window of 1 to 511 on, whatever
    came before it. -/
def entrySystem (k : BaKey) : StepSystem BaState BaAction where
  init := fun s => ∃ s0 band winSize ssn, baSystem.Reachable s0 ∧ 1 ≤ winSize ∧ winSize ≤ 511 ∧
    s = npuSetBaEntry s0 k band winSize ssn
  step := fun s a s' => SinceAddba k a ∧ baSystem.step s a s'

/-- No frame of the entry that is taken for a restarted peer's finds a
    number that is still held 2048 or more ahead of its own. -/
def restartGuard (k : BaKey) (s : BaState) : BaAction → Prop
  | .frame flags pn band => frameKey flags pn band = k → pn.wcid ≠ 0 →
      (s.entry k).RestartFits (heldNumbers s k) pn.sn pn.amsdu
  | _ => True

theorem View.Orderly.entryOrdered {hand : Multiset NodeRef} (h' : (h.view k).Orderly)
    (hrep : Rep s h hand) : EntryOrdered s k := by
  obtain ⟨hctl, hlist, hcount, hrows⟩ := hrep.entry k
  have hlast : (s.entry k).last = (h.view k).last := congrArg BaCtl.last hctl
  have hsn : ∀ r ∈ (h.view k).rows, (s.node r.mpdu.ref).sn = r.sn := fun r hr =>
    (hrep.mpdu_met hr).2
  have hnear : ∀ r ∈ (h.view k).rows,
      2 ≤ ahead (h.view k).last r.sn ∧ ahead (h.view k).last r.sn ≤ 2047 := by
    rcases h'.phase with ⟨-, hnil⟩ | ⟨-, horder⟩
    · rw [hnil]
      exact fun r hr => absurd hr List.not_mem_nil
    · exact horder.ahead
  have hsorted : (h.view k).rows.Pairwise fun r r' =>
      ahead (h.view k).last r.sn < ahead (h.view k).last r'.sn := by
    rcases h'.phase with ⟨-, hnil⟩ | ⟨-, horder⟩
    · rw [hnil]
      exact List.Pairwise.nil
    · exact horder.sorted
  refine ⟨(h.view k).rows.map (·.mpdu.ref), hlist, hlist.nodup, ?_, ?_, ?_, ?_⟩
  · rw [hcount, List.length_map]
  · rw [List.map_map, List.Nodup, List.pairwise_map]
    refine hsorted.imp_of_mem fun {r r'} hr hr' hlt heq => ?_
    simp only [Function.comp_apply, hsn r hr, hsn r' hr'] at heq
    rw [heq] at hlt
    exact lt_irrefl _ hlt
  · rw [List.pairwise_map, hlast]
    refine hsorted.imp_of_mem fun {r r'} hr hr' hlt => ?_
    rw [hsn r hr, hsn r' hr']
    exact hlt
  · intro x hx
    obtain ⟨r, hr, rfl⟩ := List.mem_map.mp hx
    rw [hlast, hsn r hr]
    exact hnear r hr

/-- What a step of the run does to the entry. -/
theorem View.Orderly.step {a : BaAction} (h' : (h.view k).Orderly) (hrep : Rep s h lost)
    (hsince : SinceAddba k a) (hguard : restartGuard k s a) (hmove : EntryMove k a (h.view k) w) :
    w.Orderly := by
  cases hmove with
  | same hsame => exact h'.same hsame
  | flush => exact h'.flush
  | timeout => exact h'.timeout _ _ _
  | bar => exact h'.barInfo (hsince rfl)
  | setBa => exact absurd rfl hsince
  | reset => exact absurd rfl hsince
  | frame hsn hkey hwcid hst hsame =>
    have hfits := hguard hkey hwcid
    rw [hrep.heldNumbers_eq, (hrep.entry k).ctl] at hfits
    exact ((h'.arrive hsn _ hfits).take hsn hst _ _ _).same hsame

theorem chaining_of_reachable (hreach : baSystem.Reachable s) : ∃ h lost, Chaining s h lost := by
  induction hreach with
  | init hinit =>
    obtain ⟨h, hrep, hnothing⟩ := hinit
    refine ⟨h, 0, hrep, fun k sub hsub => ?_⟩
    rw [(hnothing k).2.1] at hsub
    cases hsub
  | step a _ hstep ih =>
    obtain ⟨h, lost, hinv⟩ := ih
    obtain ⟨h', lost', hinv', -⟩ := hinv.step hstep
    exact ⟨h', lost', hinv'⟩

/-- An ADDBA leaves the entry waiting for its first frame. -/
theorem orderly_of_addba {band winSize ssn : ℕ} (hinv : Chaining s h lost)
    (hwin : 1 ≤ winSize ∧ winSize ≤ 511) :
    ∃ h', Chaining (npuSetBaEntry s k band winSize ssn) h' lost ∧ (h'.view k).Orderly := by
  refine ⟨_, hinv.after (sheds_setBa s k band winSize ssn)
    (hinv.rep.setBaEntry band winSize ssn), ?_⟩
  rw [HeldState.app_view_self]
  unfold View.setBaEntry Move.andThen
  dsimp only
  rw [if_neg (by omega)]
  refine ⟨hwin, .inl ⟨rfl, rfl⟩, fun hopen => ?_⟩
  have hthree : 3 = 4 := hopen
  omega

theorem orderly_of_reachable (hreach : ((entrySystem k).guarded (restartGuard k)).Reachable s) :
    ∃ h lost, Chaining s h lost ∧ (h.view k).Orderly := by
  induction hreach with
  | init hinit =>
    obtain ⟨s0, band, winSize, ssn, hreach, hlow, hhigh, rfl⟩ := hinit
    obtain ⟨h, lost, hinv⟩ := chaining_of_reachable hreach
    obtain ⟨h', hinv', horderly⟩ := @orderly_of_addba _ _ _ k band winSize ssn hinv ⟨hlow, hhigh⟩
    exact ⟨h', lost, hinv', horderly⟩
  | step a _ hstep ih =>
    obtain ⟨hguard, hsince, hstep⟩ := hstep
    obtain ⟨h, lost, hinv, horderly⟩ := ih
    obtain ⟨h', lost', hinv', hmoves⟩ := hinv.step hstep
    exact ⟨h', lost', hinv', horderly.step hinv.rep hsince hguard (hmoves k)⟩

/-- In every run from an ADDBA on in which no restarted peer's number has
    a held one 2048 or more ahead of it, the held list stays in order. -/
theorem entry_ordered_guarded (k : BaKey)
    (hreach : ((entrySystem k).guarded (restartGuard k)).Reachable s) : EntryOrdered s k := by
  obtain ⟨h, lost, hinv, horderly⟩ := orderly_of_reachable hreach
  exact horderly.entryOrdered hinv.rep

theorem addba100_init : (entrySystem key1).init addba100 :=
  ⟨window100, 0, 64, 101, .init window100_init, by decide, by decide, rfl⟩

/-- 110 is held and 100 the last number. -/
def gap110 : BaState := (addba100.arrives 100 0 1).arrives 110 0 2

theorem gap110_reachable : ((entrySystem key1).guarded (restartGuard key1)).Reachable gap110 := by
  refine .step (.frame noFlags (subframe 110 0 2) 0) (.step (.frame noFlags (subframe 100 0 1) 0)
    (.init addba100_init) ⟨?_, trivial, by decide, by decide, rfl⟩)
    ⟨?_, trivial, by decide, by decide, rfl⟩
  · intro _ _ hopen
    exact absurd hopen (by decide +kernel)
  · intro _ _ _ hbehind
    exact absurd hbehind (by decide +kernel)

/-- A frame numbered 3000 is taken for a restarted peer's; 110 is then
    1206 ahead of it. -/
theorem entry_ordered_guarded_gap :
    bit11 (3000 - (gap110.entry key1).last) ∧
      peerRestarted (gap110.entry key1).win (gap110.entry key1).last 3000 ∧
      heldNumbers (gap110.arrives 3000 0 3) key1 = [110] ∧
      EntryOrdered (gap110.arrives 3000 0 3) key1 := by
  refine ⟨by decide +kernel, by decide +kernel, by decide +kernel, entry_ordered_guarded key1 ?_⟩
  refine .step (.frame noFlags (subframe 3000 0 3) 0) gap110_reachable
    ⟨?_, trivial, by decide, by decide, rfl⟩
  -- the guard at the restart: 110 is the only number held
  have hnear : ∀ x ∈ heldNumbers gap110 key1, ¬bit11 ((x : ℤ) - 3000) := by decide +kernel
  exact fun _ _ _ _ _ x hx _ => hnear x hx

theorem entry_reachable_arrives {k : BaKey} (h : (entrySystem k).Reachable s) (sn amsdu bufId : ℕ)
    (hsn : sn < 4096) (hcode : amsdu ≤ 3) : (entrySystem k).Reachable (s.arrives sn amsdu bufId) :=
  .step (.frame noFlags (subframe sn amsdu bufId) 0) h ⟨trivial, hsn, hcode, rfl⟩

/-- With 110 held and 100 the last number, a frame numbered 2150 is taken
    for a restarted peer's; 110 is then 2056 ahead of the last number. -/
theorem entry_disordered : ∃ s, (entrySystem key1).Reachable s ∧ ¬EntryOrdered s key1 := by
  have h1 := entry_reachable_arrives (.init addba100_init) 100 0 1 (by decide) (by decide)
  have h2 := entry_reachable_arrives h1 110 0 2 (by decide) (by decide)
  have h3 := entry_reachable_arrives h2 2150 0 3 (by decide) (by decide)
  refine ⟨_, h3, ?_⟩
  set s := ((addba100.arrives 100 0 1).arrives 110 0 2).arrives 2150 0 3 with hs
  have hhead : (s.entry key1).head = some ⟨.pri, 0⟩ := by decide +kernel
  have hfar : ahead (s.entry key1).last (s.node ⟨.pri, 0⟩).sn = 2056 := by decide +kernel
  rintro ⟨l, hl⟩
  have hmem : (⟨.pri, 0⟩ : NodeRef) ∈ l := hl.linked.meets_iff.mp (hhead ▸ .here)
  have := (hl.near _ hmem).2
  omega

end ClankerNPU.Kite
