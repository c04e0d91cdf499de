import ClankerNPU.Dba.Frame

/-! # A single T-CONT

    Where one best-effort T-CONT is valid and no T-CONT 0 is, a frame
    adapts its context and grants what the adaptation leaves: the runs of
    such a core are the runs of that context. -/

namespace ClankerNPU.Dba

variable {s : Core} {k n : ℕ} {a : Alloc}

/-- T-CONT `k` is the only valid one, of best effort and not a T-CONT 0,
    and nothing is pending. -/
structure Core.Solo (s : Core) (k : ℕ) : Prop where
  getEn : s.dba.getTimerEn ≠ 0
  doEn : s.doTimerEn ≠ 0
  newEn : s.newEnCur = s.newEn
  settled : s.dba.tcont.changed = false
  newAct : s.newAct = false
  singleOk : s.singleOnuOk = false
  ovh : nextBurstOvh s.olt s.burstOvh (dbaMap s.dba.tcont.mode) s.dba.run = s.burstOvh
  lt : k < allocNum
  behind : (dbaMap s.dba.tcont.mode).nOnu ≤ k
  valid : ∀ i < allocNum, (s.dba.run i).valid = true ↔ i = k
  type : (s.dba.run k).dbaType = 4

/-- The run of one chip is evaluated for all of it at once. -/
instance (s : Core) (k : ℕ) : Decidable (s.Solo k) :=
  decidable_of_iff
    ((s.dba.getTimerEn ≠ 0 ∧ s.doTimerEn ≠ 0 ∧ s.newEnCur = s.newEn) ∧
      (s.dba.tcont.changed = false ∧ s.newAct = false ∧ s.singleOnuOk = false) ∧
      nextBurstOvh s.olt s.burstOvh (dbaMap s.dba.tcont.mode) s.dba.run = s.burstOvh ∧
      (k < allocNum ∧ (dbaMap s.dba.tcont.mode).nOnu ≤ k) ∧
      (∀ i < allocNum, (s.dba.run i).valid = true ↔ i = k) ∧ (s.dba.run k).dbaType = 4)
    ⟨fun ⟨⟨hget, hdo, hnew⟩, ⟨hsettled, hact, hsingle⟩, hovh, ⟨hlt, hbehind⟩, hvalid, htype⟩ =>
        ⟨hget, hdo, hnew, hsettled, hact, hsingle, hovh, hlt, hbehind, hvalid, htype⟩,
      fun h => ⟨⟨h.getEn, h.doEn, h.newEn⟩, ⟨h.settled, h.newAct, h.singleOk⟩, h.ovh,
        ⟨h.lt, h.behind⟩, h.valid, h.type⟩⟩

/-- The budget of a core with a single T-CONT. -/
def Core.budget (s : Core) : Budget :=
  dbaBudgetCalc false (dbaMap s.dba.tcont.mode) s.dba.run s.burstOvh s.actOnus

/-- The core with another context for the T-CONT and another frame count. -/
def Core.withCtx (s : Core) (k : ℕ) (a : Alloc) (n : ℕ) : Core :=
  { s with alloc := Function.update s.alloc k a, frameCnt := n }

theorem Core.Solo.withCtx (h : s.Solo k) (a : Alloc) (n : ℕ) : (s.withCtx k a n).Solo k :=
  ⟨h.getEn, h.doEn, h.newEn, h.settled, h.newAct, h.singleOk, h.ovh, h.lt, h.behind, h.valid,
    h.type⟩

theorem Core.withCtx_withCtx (s : Core) (k : ℕ) (a a' : Alloc) (n n' : ℕ) :
    (s.withCtx k a n).withCtx k a' n' = s.withCtx k a' n' := by
  unfold Core.withCtx
  rw [Function.update_idem]

theorem Core.withCtx_self (s : Core) (k : ℕ) (a : Alloc) (n : ℕ) : (s.withCtx k a n).alloc k = a :=
  Function.update_self _ _ _

/-- The loop over the T-CONTs is the turn of the one that is valid. -/
theorem Core.Solo.demand (h : s.Solo k) (dual olt : Bool) (share : ℕ) (d : Demand) (n : ℕ)
    (hn : n ≤ allocNum) :
    (List.range n).foldl (Demand.next dual olt share s.dba.run) d =
      if k < n then d.next dual olt share s.dba.run k else d := by
  induction n with
  | zero => rfl
  | succ n ih =>
    rw [List.range_succ, List.foldl_append, List.foldl_cons, List.foldl_nil, ih (by omega)]
    by_cases hk : n = k
    · rw [if_neg (by omega), if_pos (by omega), hk]
    · have hinvalid : ¬(s.dba.run n).valid = true := fun hv => hk ((h.valid n (by omega)).mp hv)
      have hskip (d : Demand) : d.next dual olt share s.dba.run n = d := if_pos hinvalid
      rw [hskip]
      by_cases hlt : k < n
      · rw [if_pos hlt, if_pos (by omega)]
      · rw [if_neg hlt, if_neg (by omega)]

/-- No ONU has a T-CONT 0, and the map has no entry. -/
theorem Core.Solo.mapGrants (h : s.Solo k) (g : Settings) (hg : g.mode = s.dba.tcont.mode)
    (bw : ℕ → ℤ) : mapGrants g s.dba.run bw = bw := by
  unfold Dba.mapGrants
  have hskip : ∀ (l : List ℕ) (st : (ℕ → ℤ) × Bwmap), (∀ onu ∈ l, ¬(s.dba.run onu).valid = true) →
      l.foldl (switchOnu g s.dba.run) st = st := by
    intro l
    induction l with
    | nil => exact fun _ _ => rfl
    | cons onu l ih =>
      intro st hl
      have hone : switchOnu g s.dba.run st onu = st := if_pos (hl onu List.mem_cons_self)
      rw [List.foldl_cons, hone]
      exact ih st fun o ho => hl o (List.mem_cons_of_mem _ ho)
  rw [hskip]
  intro onu honu hv
  have hlt := List.mem_range.mp honu
  rw [hg] at hlt
  have hbehind := h.behind
  have hk := h.lt
  have := (h.valid onu (by omega)).mp hv
  omega

theorem Core.Solo.drain (h : s.Solo k) (f : Frame) :
    s.drain f = { s with alloc := f.reports.foldl (dbaRptStore s.dba.mode) s.alloc } := by
  unfold Core.drain
  have hmode : s.takeMode = s := if_neg (not_not.mpr h.newEn)
  have htable : s.takeTable f.mapMode = s := if_neg (by rw [h.settled]; exact Bool.false_ne_true)
  rw [if_pos h.getEn, hmode]
  dsimp only
  rw [htable]

/-- The grant of the context fits the budget without a share. -/
def Core.Fits (s : Core) (a : Alloc) : Prop :=
  0 ≤ a.curBw ∧ a.curBw ≤ s.budget.share ∧ a.curBw ≤ s.budget.total ∧ a.curBw < 2 ^ 32

/-- The context after a request. -/
def Core.asked (s : Core) (k : ℕ) (a : Alloc) : Alloc :=
  { dbaAllocAdapt false s.olt (s.dba.run k) a with grp := 0 }

/-- The demand is the T-CONT's grant, and the budget has it. -/
theorem Core.Solo.demandOf (h : s.Solo k) (hfit : s.Fits (s.asked k (s.alloc k))) :
    demandOf false s.olt s.budget.share s.dba.run s.alloc =
        Demand.add ⟨s.alloc, [], 0, 0, 0, 0⟩ k (s.asked k (s.alloc k)) ∧
      (Demand.add ⟨s.alloc, [], 0, 0, 0, 0⟩ k (s.asked k (s.alloc k))).demand ≤
        s.budget.total := by
  obtain ⟨hpos, hshare, htotal, hlt⟩ := hfit
  have hnext : (⟨s.alloc, [], 0, 0, 0, 0⟩ : Demand).next false s.olt s.budget.share s.dba.run k =
      Demand.add ⟨s.alloc, [], 0, 0, 0, 0⟩ k (s.asked k (s.alloc k)) := by
    have hv : ¬¬(s.dba.run k).valid = true := not_not.mpr ((h.valid k h.lt).mpr rfl)
    unfold Demand.next
    dsimp only
    rw [if_neg hv, h.type, if_neg (by decide), if_neg (by decide), if_neg (by decide), if_pos rfl,
      if_pos (show (dbaAllocAdapt false s.olt (s.dba.run k) (s.alloc k)).curBw ≤ _ from hshare)]
    rfl
  constructor
  · unfold Dba.demandOf demandTo
    rw [h.demand _ _ _ _ _ le_rfl, if_pos h.lt, hnext]
  · show (0 + u32 (s.asked k (s.alloc k)).curBw) % 2 ^ 32 ≤ _
    unfold u32
    omega

theorem Core.Solo.request (h : s.Solo k) (hfit : s.Fits (s.asked k (s.alloc k))) :
    s.request = { s with alloc := Function.update s.alloc k (s.asked k (s.alloc k)) } := by
  obtain ⟨hdemand, hle⟩ := h.demandOf hfit
  have hsingle : ¬s.single := fun hs => Bool.false_ne_true (h.singleOk ▸ hs.1)
  have hrequest : dbaBwRequest false s.olt s.budget s.dba.run s.alloc =
      Function.update s.alloc k (s.asked k (s.alloc k)) := by
    unfold dbaBwRequest
    dsimp only
    rw [hdemand, if_pos hle]
    rfl
  unfold Core.request
  dsimp only
  rw [if_neg hsingle, h.ovh, h.newAct, ← hrequest]
  rfl

/-- A frame that writes a map adapts the context. -/
theorem Core.Solo.frame (h : s.Solo k) (f : Frame) (hodd : s.frameCnt % 2 = 1)
    (hr : f.reports.foldl (dbaRptStore s.dba.mode) s.alloc = Function.update s.alloc k a)
    (hfit : s.Fits (s.asked k a)) :
    s.frame f = s.withCtx k (s.asked k a) ((s.frameCnt + 1) % 2 ^ 32) := by
  have hdrain : s.drain f = s.withCtx k a s.frameCnt := by
    rw [h.drain, hr]
    rfl
  have hsolo := h.withCtx a s.frameCnt
  have hself := s.withCtx_self k a s.frameCnt
  have hreq : (s.withCtx k a s.frameCnt).request = s.withCtx k (s.asked k a) s.frameCnt := by
    rw [hsolo.request (by rw [hself]; exact hfit), hself]
    unfold Core.withCtx
    dsimp only
    rw [Function.update_idem]
    rfl
  have hwrite (t : Core) (ht : t.Solo k) : t.write f = t := by
    have hbw : (if t.newAct = true then f.regrant else Dba.mapGrants
        ⟨t.burstOvh, if t.olt = true then 1 else 0, t.dba.tcont.mode⟩ t.dba.run
          fun i => (t.alloc i).curBw) = fun i => (t.alloc i).curBw := by
      rw [ht.newAct, if_neg Bool.false_ne_true, ht.mapGrants _ rfl]
    unfold Core.write
    dsimp only
    rw [hbw]
  unfold Core.frame
  dsimp only
  rw [hdrain, if_pos ⟨hodd, h.doEn⟩, hreq, hwrite _ (h.withCtx _ _)]
  rfl

/-- A frame between two maps only drains. -/
theorem Core.Solo.frame_even (h : s.Solo k) (f : Frame) (heven : s.frameCnt % 2 = 0)
    (hr : f.reports = []) :
    s.frame f = { s with frameCnt := (s.frameCnt + 1) % 2 ^ 32 } := by
  have hdrain : s.drain f = s := by
    rw [h.drain, hr]
    rfl
  have hw : ¬s.writes := fun hw => by
    have := hw.1
    omega
  unfold Core.frame
  dsimp only
  rw [hdrain, if_neg hw]

/-! ## Runs of frames -/

/-- A report of an alloc id as the hardware writes it. -/
def Rpt.hw (aid : ℕ) (r : Rpt) : HwRpt := ⟨r.nonIdle, r.bwmapByte, aid * 2 ^ 15 + r.dbru⟩

/-- The alloc id is the one of the T-CONT. -/
structure AidOf (mode aid k : ℕ) : Prop where
  lt : aid < 2 ^ 12
  used : aid ≠ 0xFF
  index : tcontIdx (dbaMap mode) (aid % (dbaMap mode).nOnu)
    ((aid &&& (dbaMap mode).tcMask) >>> (dbaMap mode).tcShift) = k

theorem AidOf.store {mode aid : ℕ} (h : AidOf mode aid k) (alloc : ℕ → Alloc) (r : Rpt)
    (hr : r.dbru < 2 ^ 15) :
    dbaRptStore mode alloc (r.hw aid) = Function.update alloc k (dbaRptPush (alloc k) r) := by
  have hlt := h.lt
  have haid : (aid * 2 ^ 15 + r.dbru) / 2 ^ 15 % 2 ^ 12 = aid := by omega
  have hdbru : (aid * 2 ^ 15 + r.dbru) % 2 ^ 15 = r.dbru := by omega
  unfold dbaRptStore Rpt.hw
  dsimp only
  rw [haid, hdbru, if_neg h.used, h.index]

/-- The context after a report and the request that follows. -/
def afterReport (olt : Bool) (c : TcontCfg) (a : Alloc) (r : Rpt) : Alloc :=
  { dbaAllocAdapt false olt c (dbaRptPush a r) with grp := 0 }

/-- The context after reports, one for each map, as long as it passes a
    check and its grant a bound. -/
def afterReports (olt : Bool) (c : TcontCfg) (bound : ℕ) (check : Alloc → Bool) (a : Alloc)
    (rs : List Rpt) : Option Alloc :=
  rs.foldlM (fun a r =>
    if r.dbru < 2 ^ 15 ∧ check (dbaRptPush a r) ∧ 0 ≤ (afterReport olt c a r).curBw ∧
      (afterReport olt c a r).curBw ≤ bound then some (afterReport olt c a r) else none) a

/-- The frame a report comes with, and the frame after it. -/
def reportFrame (aid : ℕ) (r : Rpt) : Frame := ⟨0, [r.hw aid], fun _ => 0⟩

def idleFrame : Frame := ⟨0, [], fun _ => 0⟩

/-- The budget has room for a grant. -/
structure Core.Room (s : Core) (bound : ℕ) : Prop where
  share : bound ≤ s.budget.share
  total : bound ≤ s.budget.total
  word : bound < 2 ^ 32

theorem Core.Room.fits {bound : ℕ} (h : s.Room bound) (hpos : 0 ≤ a.curBw)
    (hle : a.curBw ≤ bound) : s.Fits a := by
  have hshare := h.share
  have htotal := h.total
  have hword := h.word
  exact ⟨hpos, hle.trans (by exact_mod_cast hshare), hle.trans (by exact_mod_cast htotal),
    hle.trans_lt (by exact_mod_cast hword)⟩

theorem Core.Solo.report {aid bound : ℕ} {r : Rpt} (h : s.Solo k) (hroom : s.Room bound)
    (haid : AidOf s.dba.mode aid k) (hn : n % 2 = 1) (hr : r.dbru < 2 ^ 15)
    (hpos : 0 ≤ (afterReport s.olt (s.dba.run k) a r).curBw)
    (hle : (afterReport s.olt (s.dba.run k) a r).curBw ≤ bound) :
    (s.withCtx k a n).frame (reportFrame aid r) =
      s.withCtx k (afterReport s.olt (s.dba.run k) a r) ((n + 1) % 2 ^ 32) := by
  have hself := s.withCtx_self k a n
  have hfit : (s.withCtx k a n).Fits ((s.withCtx k a n).asked k (dbaRptPush a r)) :=
    hroom.fits hpos hle
  have hstore := AidOf.store haid (s.withCtx k a n).alloc r hr
  rw [hself] at hstore
  rw [(h.withCtx a n).frame (reportFrame aid r) hn hstore hfit, Core.withCtx_withCtx]
  rfl

/-- What a frame with a report drains to. -/
theorem Core.Solo.drain_report {aid : ℕ} {r : Rpt} (h : s.Solo k) (haid : AidOf s.dba.mode aid k)
    (hr : r.dbru < 2 ^ 15) :
    (s.withCtx k a n).drain (reportFrame aid r) = s.withCtx k (dbaRptPush a r) n := by
  have hself := s.withCtx_self k a n
  have hstore := AidOf.store haid (s.withCtx k a n).alloc r hr
  have hreports : (reportFrame aid r).reports.foldl (dbaRptStore s.dba.mode)
      (s.withCtx k a n).alloc = Function.update s.alloc k (dbaRptPush a r) := by
    show dbaRptStore s.dba.mode (s.withCtx k a n).alloc (r.hw aid) = _
    rw [hstore, hself]
    exact Function.update_idem _ _ _
  rw [(h.withCtx a n).drain]
  show ({ s.withCtx k a n with alloc := _ } : Core) = _
  rw [show (s.withCtx k a n).dba.mode = s.dba.mode from rfl, hreports]
  rfl

/-- A frame without one drains nothing. -/
theorem Core.Solo.drain_idle (h : s.Solo k) : s.drain idleFrame = s := h.drain idleFrame

theorem Core.Solo.drain_act (h : s.Solo k) (f : Frame) : (s.drain f).newAct = false := by
  rw [h.drain]
  exact h.newAct

theorem Core.Solo.idle (h : s.Solo k) (hn : n % 2 = 0) :
    (s.withCtx k a n).frame idleFrame = s.withCtx k a ((n + 1) % 2 ^ 32) :=
  (h.withCtx a n).frame_even idleFrame hn rfl

/-- The reports of a run bring the core to the context they lead to. -/
theorem Core.Solo.reports {G : Core → CoreAct → Prop} {check : Alloc → Bool} {aid bound : ℕ}
    {a' : Alloc} {rs : List Rpt} (h : s.Solo k) (hroom : s.Room bound)
    (haid : AidOf s.dba.mode aid k)
    (hreport : ∀ a n r, check (dbaRptPush a r) = true → r.dbru < 2 ^ 15 →
      G (s.withCtx k a n) (.frame (reportFrame aid r)))
    (hidle : ∀ s : Core, s.frameCnt % 2 = 0 → G s (.frame idleFrame))
    (hn : n % 2 = 1) (hreach : (core5.guarded G).Reachable (s.withCtx k a n))
    (hrun : afterReports s.olt (s.dba.run k) bound check a rs = some a') :
    ∃ n', n' % 2 = 1 ∧ (core5.guarded G).Reachable (s.withCtx k a' n') := by
  induction rs generalizing a n with
  | nil =>
    obtain rfl := Option.some.inj hrun
    exact ⟨n, hn, hreach⟩
  | cons r rs ih =>
    unfold afterReports at hrun
    rw [List.foldlM_cons] at hrun
    obtain ⟨b, hb, hrest⟩ := Option.bind_eq_some_iff.mp hrun
    split_ifs at hb with hok
    obtain rfl := Option.some.inj hb
    obtain ⟨hr, hcheck, hpos, hle⟩ := hok
    have heven : (n + 1) % 2 ^ 32 % 2 = 0 := by omega
    have hodd : ((n + 1) % 2 ^ 32 + 1) % 2 ^ 32 % 2 = 1 := by omega
    have hfirst := h.report hroom haid hn hr hpos hle
    have hsecond := @Core.Solo.idle s k _ (afterReport s.olt (s.dba.run k) a r) h heven
    refine ih hodd ?_ hrest
    refine .step (.frame idleFrame) (.step (.frame (reportFrame aid r)) hreach
      ⟨hreport a n r hcheck hr, rfl⟩) ⟨?_, ?_⟩
    · show G ((s.withCtx k a n).frame (reportFrame aid r)) _
      rw [hfirst]
      exact hidle _ heven
    · show _ = ((s.withCtx k a n).frame (reportFrame aid r)).frame idleFrame
      rw [hfirst, hsecond]

/-- T-CONT 1 of ONU 0 alone, granted at most 316 units a map. -/
def soloMails : List HostMail :=
  [.timerEn 1 1, .tcontDba (tcontOf 32) 256 4 0 0 316, .tcontState (tcontOf 32) 1]

/-- A chip in map mode 0 with these mails, after the frame that takes them
    over. -/
def soloCore : Core := (soloMails.foldl Core.mail (core5DbaMain 0)).frame idleFrame

/-- What the table of that chip comes to. -/
theorem soloCore_table : (∀ i < allocNum, (soloCore.dba.run i).valid = true ↔ i = 32) ∧
    nextBurstOvh soloCore.olt soloCore.burstOvh (dbaMap soloCore.dba.tcont.mode)
      soloCore.dba.run = soloCore.burstOvh ∧
    316 ≤ soloCore.budget.share ∧ 316 ≤ soloCore.budget.total := by
  decide +kernel

theorem soloCore_solo : soloCore.Solo 32 := by decide +kernel

/-- Its words that reports and frames read. -/
theorem soloCore_words : soloCore.olt = false ∧ soloCore.dba.run 32 = ⟨1, 256, 4, 0, 0, 316⟩ ∧
    soloCore.dba.mode = 0 ∧ soloCore.alloc 32 = noAlloc ∧ soloCore.frameCnt = 1 := by
  decide +kernel

theorem soloCore_olt : soloCore.olt = false := soloCore_words.1

theorem soloCore_run : soloCore.dba.run 32 = ⟨1, 256, 4, 0, 0, 316⟩ := soloCore_words.2.1

theorem soloCore_room : soloCore.Room 316 where
  share := soloCore_table.2.2.1
  total := soloCore_table.2.2.2
  word := by decide

theorem soloCore_aid : AidOf soloCore.dba.mode 256 32 := by
  obtain ⟨-, -, hmode, -, -⟩ := soloCore_words
  rw [hmode]
  exact ⟨by decide, by decide, by decide⟩

/-- A backlog of 20, and a grant of which 17 units went unused. -/
def backlog : Rpt := ⟨0, 0, 20⟩

def unused : Rpt := ⟨8, 25, 0⟩

theorem soloCore_ctx : soloCore.withCtx 32 noAlloc 1 = soloCore := by
  obtain ⟨-, -, -, hctx, hcnt⟩ := soloCore_words
  rw [← hctx, ← hcnt]
  unfold Core.withCtx
  rw [Function.update_eq_self]

/-- Reports bring the chip to the context they lead to. -/
theorem soloCore_reports {G : Core → CoreAct → Prop} {check : Alloc → Bool} {rs : List Rpt}
    (hmail : ∀ s m, G s (.mail m))
    (hidle : ∀ s : Core, s.frameCnt % 2 = 0 → G s (.frame idleFrame))
    (hreport : ∀ a n r, check (dbaRptPush a r) = true → r.dbru < 2 ^ 15 →
      G (soloCore.withCtx 32 a n) (.frame (reportFrame 256 r)))
    (hrun : afterReports false ⟨1, 256, 4, 0, 0, 316⟩ 316 check noAlloc rs = some a) :
    ∃ n, n % 2 = 1 ∧ (core5.guarded G).Reachable (soloCore.withCtx 32 a n) := by
  have hreach : (core5.guarded G).Reachable soloCore := by
    refine .step (.frame idleFrame) (reachable_mails hmail _ (.init ⟨0, rfl⟩)) ⟨?_, rfl⟩
    exact hidle _ (by decide)
  rw [← soloCore_ctx] at hreach
  have hrun' : afterReports soloCore.olt (soloCore.dba.run 32) 316 check noAlloc rs = some a := by
    rw [soloCore_olt, soloCore_run]
    exact hrun
  exact soloCore_solo.reports soloCore_room soloCore_aid hreport hidle rfl hreach hrun'

end ClankerNPU.Dba
