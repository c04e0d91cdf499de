import ClankerNPU.Dba.Share
import ClankerNPU.Dba.Solo

/-! # Grants within the contract

    The clamp holds a grant to the T-CONT's contract when a report is
    adapted. A T-CONT without a new report keeps the grant it has, and the
    division of an overbooked map can raise one; where neither goes above
    the contract, no request does. -/

namespace ClankerNPU.Dba

variable {dual olt : Bool} {c : TcontCfg} {a : Alloc} {s : Core}

/-- What the contract of a T-CONT allows a map. -/
def TcontCfg.cap (dual : Bool) (c : TcontCfg) : ℕ :=
  let two := if dual then 2 else 1
  if c.dbaType = 1 then c.fixBw * two
  else if c.dbaType = 2 then c.assureBw
  else if c.dbaType = 3 ∨ c.dbaType = 4 then c.maxBw * two
  else if c.dbaType = 5 then max c.maxBw c.fixBw * two
  else 2

/-- The same, with the minimum of a default T-CONT 0 -/
def TcontCfg.bound (dual : Bool) (c : TcontCfg) : ℕ :=
  if c.defaultId then max (c.cap dual) (if dual then 15 else 27) else c.cap dual

theorem cap_le_bound (dual : Bool) (c : TcontCfg) : c.cap dual ≤ c.bound dual := by
  unfold TcontCfg.bound
  split_ifs
  · exact le_max_left _ _
  · exact le_max_left _ _
  · exact le_rfl

/-- The clamp is to the contract. -/
theorem dbaClamp_le (bw : ℤ) (h : c.adapts) : dbaClamp dual c bw ≤ c.cap dual := by
  unfold TcontCfg.adapts at h
  have hone : ¬c.dbaType = 1 := by omega
  unfold dbaClamp TcontCfg.cap
  dsimp only
  rw [if_neg hone]
  -- type 2 has one bound, types 3 and 4 the maximum, type 5 two
  by_cases h2 : c.dbaType = 2
  · rw [if_neg (by omega : ¬(c.dbaType = 3 ∨ c.dbaType = 4 ∨ c.dbaType = 5)), if_pos h2, if_pos h2]
    exact min_le_right _ _
  · rw [if_pos (by omega : c.dbaType = 3 ∨ c.dbaType = 4 ∨ c.dbaType = 5), if_neg h2]
    by_cases h5 : c.dbaType = 5
    · rw [if_neg (by omega : ¬(c.dbaType = 3 ∨ c.dbaType = 4)), if_pos h5]
      cases dual
      all_goals
        simp only [if_true, Bool.false_eq_true, if_false]
        split_ifs <;> omega
    · rw [if_pos (by omega : c.dbaType = 3 ∨ c.dbaType = 4), if_neg (fun h => h5 h.1)]
      cases dual
      all_goals
        simp only [if_true, Bool.false_eq_true, if_false]
        omega

theorem dbaFloor_le {bw : ℤ} (h : bw ≤ c.cap dual) : dbaFloor dual c bw ≤ c.bound dual := by
  unfold dbaFloor TcontCfg.bound
  by_cases hid : c.defaultId
  · rw [if_neg (not_not.mpr hid), if_pos hid]
    cases dual
    all_goals
      simp only [if_true, Bool.false_eq_true, if_false]
      split_ifs <;> omega
  · rw [if_pos hid, if_neg hid]
    exact h

/-- An adapted grant is within the contract. -/
theorem dbaAllocAdapt_le (h : c.adapts) (hfresh : ¬a.stale dual) :
    (dbaAllocAdapt dual olt c a).curBw ≤ c.bound dual := by
  unfold dbaAllocAdapt
  rw [if_neg hfresh]
  exact dbaFloor_le (dbaClamp_le _ h)

/-- What a T-CONT without a new report is left with. -/
def Alloc.kept (a : Alloc) : ℤ := if a.curBw = 0 then 2 else a.curBw

/-- A turn is within the contract, if it is of a T-CONT that adapts or
    keeps a grant within it. -/
theorem turned_le (hkept : c.adapts → a.stale dual → a.kept ≤ c.bound dual) :
    (turned dual olt c a).curBw ≤ c.bound dual := by
  have hcap := cap_le_bound dual c
  unfold turned
  by_cases h1 : c.dbaType = 1
  · rw [if_pos h1]
    unfold TcontCfg.cap at hcap
    dsimp only at hcap ⊢
    rw [if_pos h1] at hcap
    split_ifs at hcap ⊢ <;> omega
  rw [if_neg h1]
  by_cases hadapt : c.adapts
  · rw [if_pos hadapt]
    by_cases hstale : a.stale dual
    · have heq : dbaAllocAdapt dual olt c a = { a with curBw := a.kept } := if_pos hstale
      rw [heq]
      exact hkept hadapt hstale
    · exact dbaAllocAdapt_le hadapt hstale
  · rw [if_neg hadapt]
    unfold TcontCfg.adapts at hadapt
    -- any other type gets 2
    have htwo : c.cap dual = 2 := by
      unfold TcontCfg.cap
      dsimp only
      rw [if_neg h1, if_neg (by omega), if_neg (by omega), if_neg (by omega)]
    show (2 : ℤ) ≤ _
    omega

/-! ## Requests -/

/-- The T-CONTs without a new report hold grants within their contracts,
    and an overbooked map is divisible. -/
structure Core.Sound (s : Core) : Prop where
  kept : ∀ i < allocNum, (s.dba.run i).valid = true → (s.dba.run i).adapts →
    (s.alloc i).stale s.newAct → (s.alloc i).kept ≤ (s.dba.run i).bound s.newAct
  divisible : Divisible s.newAct s.olt
    (dbaBudgetCalc s.newAct (dbaMap s.dba.tcont.mode) s.dba.run
      (nextBurstOvh s.olt s.burstOvh (dbaMap s.dba.tcont.mode) s.dba.run) s.actOnus)
    s.dba.run s.alloc

/-- A request keeps every valid T-CONT within its contract. -/
theorem request_le (h : s.Sound) (hs : ¬s.single) {i : ℕ} (hi : i < allocNum)
    (hv : (s.dba.run i).valid = true) :
    (s.request.alloc i).curBw ≤ (s.dba.run i).bound s.newAct := by
  show ((ite s.single _ _ : ℕ → Alloc) i).curBw ≤ _
  rw [if_neg hs]
  rcases dbaBwRequest_le h.divisible i with hle | hzero
  · obtain ⟨grp, hturn⟩ := (demandTo_alloc s.newAct s.olt _ s.dba.run s.alloc allocNum i).1 hi hv
    unfold demandOf at hle
    rw [hturn] at hle
    exact hle.trans (turned_le (h.kept i hi hv))
  · rw [hzero]
    exact Int.natCast_nonneg _

/-- The last request of a run: its mode, its table and its grants. -/
structure Asked where
  dual : Bool
  cfg : Table
  bw : ℕ → ℤ

/-- A core and its last request. -/
structure Watch where
  core : Core
  asked : Option Asked

/-- The frame makes a request. -/
def Core.asks (s : Core) : Prop := s.writes ∧ ¬s.single

instance (s : Core) : Decidable s.asks := inferInstanceAs (Decidable (_ ∧ _))

def Watch.next (w : Watch) : CoreAct → Watch
  | .mail m => ⟨w.core.mail m, w.asked⟩
  | .frame f =>
    ⟨w.core.frame f,
      if (w.core.drain f).asks then
        some ⟨(w.core.drain f).newAct, (w.core.drain f).dba.run,
          fun i => ((w.core.drain f).request.alloc i).curBw⟩
      else w.asked⟩

/-- The runs of mails and frames, with the requests watched. -/
def watched : StepSystem Watch CoreAct where
  init w := ∃ v, w = ⟨core5DbaMain v, none⟩
  step w a w' := w' = w.next a

/-- Every request of the run finds the contexts sound. -/
def Watch.Heeds (w : Watch) : CoreAct → Prop
  | .mail _ => True
  | .frame f => (w.core.drain f).asks → (w.core.drain f).Sound

/-- Every valid T-CONT is within its contract. -/
def Asked.Capped (q : Asked) : Prop :=
  ∀ i < allocNum, (q.cfg i).valid = true → q.bw i ≤ (q.cfg i).bound q.dual

def Watch.Capped (w : Watch) : Prop := ∀ q, w.asked = some q → q.Capped

/-- Watching does not change a run. -/
theorem core_of_watched {w : Watch} (h : watched.Reachable w) : core5.Reachable w.core := by
  refine h.map (f := Watch.core) ?_ ?_
  · rintro _ ⟨v, rfl⟩
    exact ⟨v, rfl⟩
  · rintro w a _ _ rfl
    right
    refine ⟨a, ?_⟩
    cases a <;> rfl

theorem Watch.next_asked {w : Watch} {f : Frame} (h : (w.core.drain f).asks) :
    (w.next (.frame f)).asked = some ⟨(w.core.drain f).newAct, (w.core.drain f).dba.run,
      fun i => ((w.core.drain f).request.alloc i).curBw⟩ := if_pos h

/-- In a run whose requests find the contexts sound, every request keeps
    every valid T-CONT within its contract. -/
theorem requests_capped (w : Watch) (h : (watched.guarded Watch.Heeds).Reachable w) :
    w.Capped := by
  have hinit : ∀ w, (watched.guarded Watch.Heeds).init w → w.Capped := by
    rintro _ ⟨v, rfl⟩ q hq
    cases hq
  refine h.invariant hinit ?_
  rintro w a _ hw ⟨hg, rfl⟩ q hq
  cases a with
  | mail m => exact hw q hq
  | frame f =>
    change (if (w.core.drain f).asks then _ else w.asked) = some q at hq
    by_cases hasks : (w.core.drain f).asks
    · rw [if_pos hasks] at hq
      obtain rfl := Option.some.inj hq
      intro i hi hv
      exact request_le (hg hasks) hasks.2 hi hv
    · rw [if_neg hasks] at hq
      exact hw q hq

/-! ## A grant above the contract -/

/-- Every run of the core is watched. -/
theorem watched_of_core (h : core5.Reachable s) : ∃ asked, watched.Reachable ⟨s, asked⟩ := by
  induction h with
  | init h0 =>
    obtain ⟨v, rfl⟩ := h0
    exact ⟨none, .init ⟨v, rfl⟩⟩
  | step a _ hs ih =>
    obtain ⟨asked, hw⟩ := ih
    subst hs
    cases a with
    | mail m => exact ⟨_, .step (.mail m) hw rfl⟩
    | frame f => exact ⟨_, .step (.frame f) hw rfl⟩

theorem watched_mails {asked : Option Asked} (ms : List HostMail)
    (h : (watched.guarded Watch.Heeds).Reachable ⟨s, asked⟩) :
    (watched.guarded Watch.Heeds).Reachable ⟨ms.foldl Core.mail s, asked⟩ := by
  induction ms generalizing s with
  | nil => exact h
  | cons m ms ih => exact ih (.step (.mail m) h ⟨trivial, rfl⟩)

/-- A frame between two maps asks for nothing. -/
theorem not_asks_even (f : Frame) (h : s.frameCnt % 2 = 0) : ¬(s.drain f).asks := by
  intro hasks
  have hodd := hasks.1.1
  rw [drain_frameCnt] at hodd
  omega

theorem watched_soloCore :
    (watched.guarded Watch.Heeds).Reachable ⟨soloCore.withCtx 32 noAlloc 1, none⟩ := by
  have hmails := watched_mails soloMails (.init ⟨0, rfl⟩)
  have hquiet := not_asks_even idleFrame (s := soloMails.foldl Core.mail (core5DbaMain 0))
    (by decide)
  rw [soloCore_ctx]
  refine .step (.frame idleFrame) hmails ⟨fun hasks => absurd hasks hquiet, ?_⟩
  show _ = Watch.mk _ (if _ then _ else _)
  rw [if_neg hquiet]
  rfl

/-- A single T-CONT with a new report and room for its grant. -/
theorem Core.Solo.sound {k : ℕ} (h : s.Solo k) (hfresh : ¬(s.alloc k).stale false)
    (hfit : s.Fits (s.asked k (s.alloc k))) : s.Sound := by
  constructor
  · intro i hi hv _ hst
    obtain rfl := (h.valid i hi).mp hv
    rw [h.newAct] at hst
    exact absurd hst hfresh
  · obtain ⟨hdemand, hle⟩ := h.demandOf hfit
    rw [h.newAct, h.ovh]
    show Divisible false s.olt s.budget s.dba.run s.alloc
    unfold Divisible
    rw [hdemand]
    exact fun hlt => absurd hle (not_le.mpr hlt)

/-- A frame with a report asks for what its context leads to. -/
theorem Core.Solo.report_sound {k n aid bound : ℕ} {r : Rpt} (h : s.Solo k) (hroom : s.Room bound)
    (haid : AidOf s.dba.mode aid k) (hn : n % 2 = 1) (hr : r.dbru < 2 ^ 15)
    (hfresh : ¬(dbaRptPush a r).stale false)
    (hpos : 0 ≤ (afterReport s.olt (s.dba.run k) a r).curBw)
    (hle : (afterReport s.olt (s.dba.run k) a r).curBw ≤ bound) :
    ((s.withCtx k a n).drain (reportFrame aid r)).asks ∧
      ((s.withCtx k a n).drain (reportFrame aid r)).Sound := by
  have hsolo := h.withCtx (dbaRptPush a r) n
  have hself := s.withCtx_self k (dbaRptPush a r) n
  rw [h.drain_report haid hr]
  refine ⟨⟨⟨hn, hsolo.doEn⟩, fun hs => Bool.false_ne_true (hsolo.singleOk ▸ hs.1)⟩,
    hsolo.sound ?_ ?_⟩
  · rw [hself]
    exact hfresh
  · rw [hself]
    exact hroom.fits hpos hle

/-- The chip with a single T-CONT asks for the grant its first report
    leads to. -/
theorem requests_capped_first : ∃ w q, (watched.guarded Watch.Heeds).Reachable w ∧
    w.asked = some q ∧ w.Capped := by
  have hgrant : (afterReport soloCore.olt (soloCore.dba.run 32) noAlloc backlog).curBw = 316 := by
    rw [soloCore_run, soloCore_olt]
    decide
  obtain ⟨hasks, hsound⟩ := soloCore_solo.report_sound (n := 1) soloCore_room soloCore_aid rfl
    (by decide) (by decide) (by rw [hgrant]; decide) hgrant.le
  have hreach : (watched.guarded Watch.Heeds).Reachable
      ((⟨soloCore.withCtx 32 noAlloc 1, none⟩ : Watch).next (.frame (reportFrame 256 backlog))) :=
    .step (.frame (reportFrame 256 backlog)) watched_soloCore ⟨fun _ => hsound, rfl⟩
  exact ⟨_, _, hreach, Watch.next_asked hasks, requests_capped _ hreach⟩

/-- The context after that report -/
def granted316 : Alloc := ⟨1, 1, ⟨0, 0, 0⟩, ⟨0, 0, 20⟩, 0, 0, 0, 316, 20, 0, 1, 0, false⟩

/-- That chip once the host has lowered the contract to 100. -/
def loweredCore : Core :=
  ((soloCore.withCtx 32 granted316 2).mail (.tcontDba (tcontOf 32) 256 4 0 0 100)).frame idleFrame

theorem loweredCore_table : (∀ i < allocNum, (loweredCore.dba.run i).valid = true ↔ i = 32) ∧
    nextBurstOvh loweredCore.olt loweredCore.burstOvh (dbaMap loweredCore.dba.tcont.mode)
      loweredCore.dba.run = loweredCore.burstOvh ∧
    316 ≤ loweredCore.budget.share ∧ 316 ≤ loweredCore.budget.total := by
  decide +kernel

theorem loweredCore_solo : loweredCore.Solo 32 := by decide +kernel

theorem loweredCore_run : loweredCore.dba.run 32 = ⟨1, 256, 4, 0, 0, 100⟩ := by decide +kernel

theorem loweredCore_reachable : core5.Reachable loweredCore := by
  have hfirst := core_of_watched watched_soloCore.of_guarded
  have hctx : afterReport soloCore.olt (soloCore.dba.run 32) noAlloc backlog = granted316 := by
    rw [soloCore_run, soloCore_olt]
    decide
  have hframe := soloCore_solo.report (a := noAlloc) (n := 1) (r := backlog) soloCore_room
    soloCore_aid rfl (by decide) (by rw [hctx]; decide) (by rw [hctx]; decide)
  rw [hctx] at hframe
  have hgranted : core5.Reachable (soloCore.withCtx 32 granted316 2) :=
    .step (.frame (reportFrame 256 backlog)) hfirst hframe.symm
  exact .step (.frame idleFrame) (.step (.mail _) hgranted rfl) rfl

/-- What a cap on every watched run says of one request. -/
theorem capped_request {f : Frame} (hall : ∀ w : Watch, watched.Reachable w → w.Capped)
    (h : core5.Reachable s) (hasks : (s.drain f).asks) {i : ℕ} (hi : i < allocNum)
    (hv : ((s.drain f).dba.run i).valid = true) :
    ((s.drain f).request.alloc i).curBw ≤ ((s.drain f).dba.run i).bound (s.drain f).newAct := by
  obtain ⟨asked, hreach⟩ := watched_of_core h
  exact hall _ (.step (.frame f) hreach rfl) _ (Watch.next_asked hasks) i hi hv

/-- A T-CONT without a new report keeps the grant it had under the
    contract before. -/
theorem requests_stale : ¬∀ w : Watch, watched.Reachable w → w.Capped := by
  intro hall
  have hdrain := loweredCore_solo.drain_idle
  have hcnt : loweredCore.frameCnt % 2 = 1 := by decide +kernel
  have halloc : loweredCore.alloc 32 = granted316 := by decide +kernel
  have holt : loweredCore.olt = false := by decide +kernel
  have hkept : loweredCore.asked 32 (loweredCore.alloc 32) = granted316 := by
    unfold Core.asked
    rw [halloc, loweredCore_run, holt]
    decide
  have hroom : loweredCore.Room 316 :=
    ⟨loweredCore_table.2.2.1, loweredCore_table.2.2.2, by decide⟩
  have hrequest := loweredCore_solo.request
    (by rw [hkept]; exact hroom.fits (by decide) (by decide))
  -- the report before this frame is the one already adapted
  have hasks : (loweredCore.drain idleFrame).asks := by
    rw [hdrain]
    exact ⟨⟨hcnt, loweredCore_solo.doEn⟩, fun hs =>
      Bool.false_ne_true (loweredCore_solo.singleOk ▸ hs.1)⟩
  have hle := capped_request hall loweredCore_reachable hasks (i := 32) (by decide)
    (by rw [hdrain, loweredCore_run]; decide)
  rw [hdrain, hrequest, hkept, loweredCore_run, loweredCore_solo.newAct] at hle
  dsimp only at hle
  rw [Function.update_self] at hle
  exact absurd hle (by decide)

end ClankerNPU.Dba
