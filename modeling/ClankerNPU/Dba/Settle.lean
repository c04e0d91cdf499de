import ClankerNPU.Dba.Solo

/-! # The division of state 2

    State 2 divides the unused grant by its step counter, which it shares
    with states 1 and 5. State 5 counts on past 15; where the grant ends
    at 254, state 1 can hand the count to state 2, and the next step
    divides by zero. -/

namespace ClankerNPU.Dba

variable {dual olt : Bool} {c : TcontCfg} {a a' : Alloc} {i : AdaptIn} {s : Core} {f : Frame}

/-- The step counter of a report in state 2 -/
def Alloc.nextStep (a : Alloc) : ℕ := (a.stepCnt + 2) % 256

/-- The adaptation comes to the division. -/
structure Alloc.Divides (dual : Bool) (a : Alloc) : Prop where
  fresh : ¬a.stale dual
  settles : a.st = 2
  steady : (a.inputs dual).mid ≤ a.refDbru
  early : a.nextStep ≤ 15
  down : a.dec = true ∨ 1 < (a.inputs dual).acc

/-- State 1 goes to state 2 by its last exit, with the counter at 254. -/
structure Alloc.Carries (dual : Bool) (a : Alloc) : Prop where
  fresh : ¬a.stale dual
  probes : a.st = 1
  count : a.stepCnt = 254
  busy : (a.inputs dual).gapW = 0 ∧ (a.inputs dual).gapR = 0
  known : (a.inputs dual).mx ≤ a.refDbru
  enough : ((a.inputs dual).need + dbaLim a.curBw) % 2 ^ 32 < u32 (a.curBw * 10)
  level : (a.inputs dual).prev.dbru ≤ (a.inputs dual).cur.dbru
  granted : 8 < a.curBw

/-- The counter is a byte, and never 254 in state 2. -/
structure Alloc.Counted (a : Alloc) : Prop where
  lt : a.stepCnt < 256
  settles : a.st = 2 → a.stepCnt ≠ 254

/-- The division is by the counter. -/
theorem adaptSettle_divides (h : a.Divides dual) :
    (adaptSettle olt (a.inputs dual) { a with idleAvg := (a.inputs dual).avg }).1 =
      s32 (a.curBw - halved olt ((a.inputs dual).avg * 2 / a.nextStep)) := by
  have hstay : ¬(a.refDbru < (a.inputs dual).mid ∨ 15 < (a.stepCnt + 2) % 256) := by
    have := h.steady
    have : (a.stepCnt + 2) % 256 ≤ 15 := h.early
    omega
  have hdown : (a.dec || decide (1 < (a.inputs dual).acc)) = true := by
    rw [Bool.or_eq_true, decide_eq_true_iff]
    exact h.down
  unfold adaptSettle
  dsimp only
  rw [if_neg hstay, if_pos hdown]
  rfl

/-- With the counter kept off 254, the division is by 2 to 14. -/
theorem Alloc.Counted.nextStep_pos (h : a.Counted) (hd : a.Divides dual) : a.nextStep ≠ 0 := by
  have hlt := h.lt
  have hne := h.settles hd.settles
  unfold Alloc.nextStep
  -- the counter is not 254; 255 goes to 1
  omega

/-! ## One report -/

theorem Alloc.Counted.probe (olt : Bool) (i : AdaptIn) (h : a.stepCnt < 256) (hst : a.st = 1) :
    (adaptProbe olt i a).2.stepCnt < 256 ∧
      ((adaptProbe olt i a).2.st = 2 → (adaptProbe olt i a).2.stepCnt = 254 →
        a.stepCnt = 254 ∧ (i.gapW = 0 ∧ i.gapR = 0) ∧ i.mx ≤ a.refDbru ∧
          (i.need + dbaLim a.curBw) % 2 ^ 32 < u32 (a.curBw * 10) ∧
          i.prev.dbru ≤ i.cur.dbru ∧ (adaptProbe olt i a).1 = a.curBw) := by
  unfold adaptProbe
  dsimp only
  split_ifs
  all_goals dsimp only
  -- every exit but the last sets the counter
  all_goals exact ⟨by omega, fun _ h254 => by omega⟩

theorem Alloc.Counted.settle (olt : Bool) (i : AdaptIn) (a : Alloc) :
    (adaptSettle olt i a).2.stepCnt < 256 ∧ (adaptSettle olt i a).2.stepCnt ≠ 254 := by
  unfold adaptSettle
  dsimp only
  split_ifs
  all_goals dsimp only; omega

theorem adaptHoldStep_keeps (olt : Bool) (i : AdaptIn) (a : Alloc) :
    (adaptHoldStep olt i a).2.stepCnt = a.stepCnt ∧ (adaptHoldStep olt i a).2.st = a.st := by
  unfold adaptHoldStep
  dsimp only
  split_ifs <;> exact ⟨rfl, rfl⟩

theorem Alloc.Counted.hold (olt : Bool) (i : AdaptIn) (h : a.stepCnt < 256) (hst : a.st = 3) :
    (adaptHold olt i a).2.stepCnt < 256 ∧ (adaptHold olt i a).2.st ≠ 2 := by
  unfold adaptHold
  dsimp only
  split_ifs
  all_goals first
    | rw [(adaptHoldStep_keeps _ _ _).1, (adaptHoldStep_keeps _ _ _).2]
      dsimp only
      omega
    | dsimp only
      omega

theorem Alloc.Counted.grow (olt : Bool) (i : AdaptIn) (h : a.stepCnt < 256) (hst : a.st = 4) :
    (adaptGrow olt i a).2.stepCnt < 256 ∧ (adaptGrow olt i a).2.st ≠ 2 := by
  unfold adaptGrow
  dsimp only
  split_ifs
  all_goals dsimp only; omega

theorem Alloc.Counted.shrink (olt : Bool) (i : AdaptIn) (a : Alloc) :
    (adaptShrink olt i a).2.stepCnt < 256 ∧
      ((adaptShrink olt i a).2.st = 2 → (adaptShrink olt i a).2.stepCnt ≠ 254) := by
  unfold adaptShrink
  dsimp only
  split_ifs
  all_goals dsimp only; omega

/-- A report keeps the counter off 254 in state 2, unless state 1 carries
    it there. -/
theorem Alloc.Counted.adapt (h : a.Counted) (hc : ¬a.Carries dual) :
    (dbaAllocAdapt dual olt c a).Counted := by
  unfold dbaAllocAdapt
  by_cases hstale : a.stale dual
  · rw [if_pos hstale]
    exact ⟨h.lt, h.settles⟩
  · rw [if_neg hstale]
    dsimp only
    generalize hr : adaptState olt (a.inputs dual) { a with idleAvg := (a.inputs dual).avg } = r
    -- the tail of the function clears the state of a grant that has ended
    suffices hs : r.2.stepCnt < 256 ∧ (r.2.st = 2 → 8 < r.1 → r.2.stepCnt ≠ 254) by
      refine ⟨hs.1, fun hst => ?_⟩
      dsimp only at hst
      by_cases hbw : r.1 ≤ 8
      · rw [if_pos hbw] at hst
        cases hst
      · rw [if_neg hbw] at hst
        exact hs.2 hst (by omega)
    subst hr
    unfold adaptState
    dsimp only
    split
    case h_1 hst =>
      obtain ⟨hlt, hkeep⟩ := Alloc.Counted.probe olt (a.inputs dual)
        (a := { a with idleAvg := (a.inputs dual).avg }) h.lt hst
      -- the one exit that keeps 254 is the one excluded
      refine ⟨hlt, fun hst2 hbw h254 => hc ?_⟩
      obtain ⟨hcnt, hbusy, hknown, henough, hlevel, hbweq⟩ := hkeep hst2 h254
      exact ⟨hstale, hst, hcnt, hbusy, hknown, henough, hlevel, hbweq ▸ hbw⟩
    case h_2 =>
      obtain ⟨hlt, hne⟩ :=
        Alloc.Counted.settle olt (a.inputs dual) { a with idleAvg := (a.inputs dual).avg }
      exact ⟨hlt, fun _ _ => hne⟩
    case h_3 hst =>
      obtain ⟨hlt, hne⟩ := Alloc.Counted.hold olt (a.inputs dual)
        (a := { a with idleAvg := (a.inputs dual).avg }) h.lt hst
      exact ⟨hlt, fun h2 => absurd h2 hne⟩
    case h_4 hst =>
      obtain ⟨hlt, hne⟩ := Alloc.Counted.grow olt (a.inputs dual)
        (a := { a with idleAvg := (a.inputs dual).avg }) h.lt hst
      exact ⟨hlt, fun h2 => absurd h2 hne⟩
    case h_5 =>
      obtain ⟨hlt, hne⟩ :=
        Alloc.Counted.shrink olt (a.inputs dual) { a with idleAvg := (a.inputs dual).avg }
      exact ⟨hlt, fun h2 _ => hne h2⟩
    -- the default state starts state 1
    case h_6 =>
      unfold adaptStart
      exact ⟨h.lt, fun h2 => by cases h2⟩

theorem Alloc.Counted.turned (h : a.Counted) (hc : c.dbaType ≠ 1 → ¬a.Carries dual) :
    (turned dual olt c a).Counted := by
  unfold Dba.turned
  by_cases h1 : c.dbaType = 1
  · rw [if_pos h1]
    exact ⟨h.lt, h.settles⟩
  · rw [if_neg h1]
    have hadapt := @Alloc.Counted.adapt dual olt c a h (hc h1)
    split_ifs
    · exact hadapt
    · exact ⟨hadapt.lt, hadapt.settles⟩

/-! ## Runs -/

/-- The context a T-CONT's turn of a request finds. -/
def Core.atTurn (s : Core) (i : ℕ) : Alloc :=
  let m := dbaMap s.dba.tcont.mode
  let b := dbaBudgetCalc s.newAct m s.dba.run (nextBurstOvh s.olt s.burstOvh m s.dba.run) s.actOnus
  (demandTo s.newAct s.olt b.share s.dba.run s.alloc i).alloc i

/-- The T-CONT's context is adapted in the request of this frame. -/
structure Core.Adapts (s : Core) (i : ℕ) : Prop where
  writes : s.writes
  shared : ¬s.single
  lt : i < allocNum
  valid : (s.dba.run i).valid = true
  free : (s.dba.run i).dbaType ≠ 1

/-- No T-CONT that is adapted carries the count to state 2. -/
def Core.Heeds (s : Core) : CoreAct → Prop
  | .mail _ => True
  | .frame f => ∀ i, (s.drain f).Adapts i → ¬((s.drain f).alloc i).Carries (s.drain f).newAct

/-- All counters are right. -/
def Core.Counted (s : Core) : Prop := ∀ i, (s.alloc i).Counted

theorem atTurn_eq (s : Core) (i : ℕ) : s.atTurn i = s.alloc i :=
  (demandTo_alloc _ _ _ _ _ i i).2 fun h => absurd h.1 (Nat.lt_irrefl i)

theorem Alloc.Counted.regrant (h : a.Counted) (hr : a.Regranted a') : a'.Counted := by
  obtain ⟨_, _, rfl⟩ := hr
  exact ⟨h.lt, h.settles⟩

theorem counted_rptStore (mode : ℕ) (alloc : ℕ → Alloc) (hw : HwRpt)
    (h : ∀ i, (alloc i).Counted) (i : ℕ) : (dbaRptStore mode alloc hw i).Counted := by
  unfold dbaRptStore
  generalize tcontIdx _ _ _ = j
  split_ifs
  · exact h i
  · by_cases hi : i = j
    · subst hi
      rw [Function.update_self]
      exact ⟨(h i).lt, (h i).settles⟩
    · rw [Function.update_of_ne hi]
      exact h i

theorem counted_rptStores (mode : ℕ) (rs : List HwRpt) (alloc : ℕ → Alloc)
    (h : ∀ i, (alloc i).Counted) (i : ℕ) : (rs.foldl (dbaRptStore mode) alloc i).Counted := by
  induction rs generalizing alloc with
  | nil => exact h i
  | cons r rs ih => exact ih _ (counted_rptStore mode alloc r h)

theorem Core.Counted.drain (h : s.Counted) (f : Frame) : (s.drain f).Counted := by
  unfold Core.drain
  split_ifs
  · apply counted_rptStores
    rw [(takeTable_keeps _ _).1, (takeMode_keeps s).1]
    exact h
  · exact h

theorem counted_singleOnu (m : DbaMap) (onu : ℕ) (alloc : ℕ → Alloc) (h : ∀ i, (alloc i).Counted)
    (i : ℕ) : (singleOnu m onu alloc i).Counted := by
  unfold singleOnu
  dsimp only
  generalize tcontIdx m onu 0 = j
  generalize tcontIdx m onu 1 = k
  have h1 (i : ℕ) : (Function.update alloc j { alloc j with curBw := 90 } i).Counted :=
    (h i).regrant (regranted_update ⟨90, _, rfl⟩ i)
  by_cases hi : i = k
  · subst hi
    rw [Function.update_self]
    exact ⟨(h1 i).lt, fun h2 => by cases h2⟩
  · rw [Function.update_of_ne hi]
    exact h1 i

theorem Core.Counted.request (h : s.Counted) (hw : s.writes)
    (hg : ∀ i, s.Adapts i → ¬(s.alloc i).Carries s.newAct) : s.request.Counted := by
  intro i
  show (ite s.single _ _ : ℕ → Alloc) i |>.Counted
  by_cases hs : s.single
  · rw [if_pos hs]
    exact counted_singleOnu _ _ _ h i
  · rw [if_neg hs]
    refine Alloc.Counted.regrant ?_ (regranted_dbaBwRequest _ _ _ _ _ i)
    unfold demandOf
    -- a valid T-CONT has its turn; the division only changes grants
    by_cases hi : i < allocNum ∧ (s.dba.run i).valid = true
    · obtain ⟨grp, heq⟩ := (demandTo_alloc _ _ _ _ _ _ i).1 hi.1 hi.2
      rw [heq]
      refine Alloc.Counted.regrant ?_ ⟨_, grp, rfl⟩
      exact (h i).turned fun h1 => hg i ⟨hw, hs, hi.1, hi.2, h1⟩
    · rw [(demandTo_alloc _ _ _ _ _ _ i).2 hi]
      exact h i

theorem counted_step (hs : s.Counted) (act : CoreAct) (hg : s.Heeds act) :
    (s.next act).Counted := by
  cases act with
  | mail m =>
    have halloc : (s.mail m).alloc = s.alloc := by
      unfold Core.mail
      cases m with
      | oltMode mode =>
        unfold HostMail.set
        dsimp only
        split_ifs <;> rfl
      | _ => rfl
    intro i
    show ((s.mail m).alloc i).Counted
    rw [halloc]
    exact hs i
  | frame f =>
    have hd := hs.drain f
    show (s.frame f).Counted
    unfold Core.frame
    dsimp only
    split_ifs with hw
    · intro i
      exact (hd.request hw hg i).regrant ⟨_, _, rfl⟩
    · exact hd

theorem counted_of_reachable (h : (core5.guarded Core.Heeds).Reachable s) : s.Counted := by
  have hinit : ∀ s, (core5.guarded Core.Heeds).init s → s.Counted := by
    rintro _ ⟨v, rfl⟩ i
    refine ⟨?_, fun h2 => by cases h2⟩
    show 0 < 256
    decide
  refine h.invariant hinit ?_
  rintro s act _ hs ⟨hg, rfl⟩
  exact counted_step hs act hg

/-- In a run in which state 1 never carries the count 254 to state 2, no
    division of a request is by zero. -/
theorem divisor_pos (s : Core) (f : Frame) (i : ℕ)
    (h : (core5.guarded Core.Heeds).Reachable s)
    (hd : ((s.drain f).atTurn i).Divides (s.drain f).newAct) :
    ((s.drain f).atTurn i).nextStep ≠ 0 := by
  rw [atTurn_eq] at hd ⊢
  exact ((counted_of_reachable h).drain f i).nextStep_pos hd

/-! ## A division by zero -/

/-- A frame between two maps adapts nothing. -/
theorem heeds_even (f : Frame) (h : s.frameCnt % 2 = 0) : s.Heeds (.frame f) := by
  intro i ha
  have hodd := ha.writes.1
  rw [drain_frameCnt] at hodd
  omega

theorem Core.Solo.adapts {k : ℕ} (h : s.Solo k) (hodd : s.frameCnt % 2 = 1) (f : Frame) :
    (s.drain f).Adapts k := by
  rw [h.drain]
  have htype : (s.dba.run k).dbaType ≠ 1 := by
    rw [h.type]
    decide
  exact ⟨⟨hodd, h.doEn⟩, fun hs => Bool.false_ne_true (h.singleOk ▸ hs.1), h.lt,
    (h.valid k h.lt).mpr rfl, htype⟩

/-- A report that does not find the count at 254. -/
theorem Core.Solo.heeds {k n aid : ℕ} {r : Rpt} (h : s.Solo k) (haid : AidOf s.dba.mode aid k)
    (hr : r.dbru < 2 ^ 15) (hne : (dbaRptPush a r).stepCnt ≠ 254) :
    (s.withCtx k a n).Heeds (.frame (reportFrame aid r)) := by
  intro i ha hc
  have hsolo := h.withCtx a n
  have hvalid := ha.valid
  rw [hsolo.drain] at hvalid
  obtain rfl := (hsolo.valid i ha.lt).mp hvalid
  rw [h.drain_report haid hr, s.withCtx_self] at hc
  exact hne hc.count

/-- On that chip a report with a backlog and two without lead to a
    division, by 4. -/
theorem divisor_pos_four : ∃ (s : Core) (f : Frame), (core5.guarded Core.Heeds).Reachable s ∧
    ((s.drain f).atTurn 32).Divides (s.drain f).newAct ∧
      ((s.drain f).atTurn 32).nextStep ≠ 0 ∧
      let a := (s.drain f).atTurn 32
      let i := a.inputs (s.drain f).newAct
      (adaptSettle false i { a with idleAvg := i.avg }).1 = s32 (a.curBw - i.avg * 2 / 4) := by
  have hrun : afterReports false ⟨1, 256, 4, 0, 0, 316⟩ 316 (fun a => a.stepCnt ≠ 254) noAlloc
      [backlog, unused] =
        some ⟨0, 0, ⟨8, 25, 0⟩, ⟨0, 0, 20⟩, 2, 0, 0, 314, 20, 8, 2, 0, true⟩ := by decide +kernel
  obtain ⟨n, _, hreach⟩ := soloCore_reports (G := Core.Heeds) (fun _ _ => trivial)
    (fun _ h => heeds_even _ h)
    (fun a n r hc hr => soloCore_solo.heeds soloCore_aid hr (of_decide_eq_true hc)) hrun
  generalize hctx : (⟨0, 0, ⟨8, 25, 0⟩, ⟨0, 0, 20⟩, 2, 0, 0, 314, 20, 8, 2, 0, true⟩ : Alloc) = a
    at hreach
  have hd : (((soloCore.withCtx 32 a n).drain (reportFrame 256 unused)).atTurn 32).Divides
      ((soloCore.withCtx 32 a n).drain (reportFrame 256 unused)).newAct := by
    rw [atTurn_eq, (soloCore_solo.withCtx a n).drain_act,
      soloCore_solo.drain_report soloCore_aid (by decide), soloCore.withCtx_self, ← hctx]
    exact ⟨by decide, by decide, by decide, by decide, by decide⟩
  have hfour : (((soloCore.withCtx 32 a n).drain (reportFrame 256 unused)).atTurn 32).nextStep
      = 4 := by
    rw [atTurn_eq, soloCore_solo.drain_report soloCore_aid (by decide), soloCore.withCtx_self,
      ← hctx]
    decide
  refine ⟨_, _, hreach, hd, divisor_pos _ _ _ hreach hd, ?_⟩
  show (adaptSettle false _ _).1 = _
  rw [adaptSettle_divides hd, hfour]
  rfl

/-- 135 reports without a backlog count to 254 and end the grant there;
    two with one carry the count to state 2, and the third divides by
    zero. -/
theorem divisor_zero :
    ¬∀ (s : Core) (f : Frame) (i : ℕ), core5.Reachable s → (s.drain f).Adapts i →
      ((s.drain f).atTurn i).Divides (s.drain f).newAct →
        ((s.drain f).atTurn i).nextStep ≠ 0 := by
  intro hall
  have hrun : afterReports false ⟨1, 256, 4, 0, 0, 316⟩ 316 (fun _ => true) noAlloc
      (backlog :: List.replicate 135 unused ++ [backlog, backlog]) =
        some ⟨0, 0, ⟨0, 0, 20⟩, ⟨0, 0, 20⟩, 254, 0, 0, 316, 20, 4, 2, 0, true⟩ := by
    decide +kernel
  obtain ⟨n, hn, hreach⟩ := soloCore_reports (G := fun _ _ => True) (fun _ _ => trivial)
    (fun _ _ => trivial) (fun _ _ _ _ _ => trivial) hrun
  generalize hctx : (⟨0, 0, ⟨0, 0, 20⟩, ⟨0, 0, 20⟩, 254, 0, 0, 316, 20, 4, 2, 0, true⟩ : Alloc) = a
    at hreach
  have hsolo := soloCore_solo.withCtx a n
  have hpush := @Core.Solo.drain_report _ 32 n a 256 backlog soloCore_solo soloCore_aid (by decide)
  -- the third report finds the count at 254 in state 2
  refine hall _ (reportFrame 256 backlog) 32 hreach.of_guarded (hsolo.adapts hn _) ?_ ?_
  · rw [atTurn_eq, hsolo.drain_act, hpush, soloCore.withCtx_self, ← hctx]
    exact ⟨by decide, by decide, by decide, by decide, by decide⟩
  · rw [atTurn_eq, hpush, soloCore.withCtx_self, ← hctx]
    decide

end ClankerNPU.Dba
