import ClankerNPU.Dba.Request

/-! # The frame handler

    Mails change the settings and the T-CONT table; a frame takes over a
    changed table, drains the reports, and every second frame writes a
    map. Reading the hardware's report ring, the statistics, the test maps
    and the entries of the two-frame map are left out; what that map's
    writer leaves in the grants is any input of the frame. -/

namespace ClankerNPU.Dba

/-- The statics of `npu_dba.c` and the contexts on the core's stack. -/
structure Core where
  dba : DbaData
  alloc : ℕ → Alloc
  burstOvh : ℕ
  /-- `dba_tcont.olt_mode` -/
  olt : Bool
  newEn : ℕ
  newEnCur : ℕ
  newAct : Bool
  actOnus : ℕ
  lastOnu : ℕ
  singleOnuEn : ℕ
  singleOnuOk : Bool
  doTimerEn : ℕ
  frameCnt : ℕ

/-- `core5_dba_main` up to its loop, with the value of `FTTR_MAP_MODE` -/
def core5DbaMain (v : ℕ) : Core where
  dba := dbaCfgInit v
  alloc := fun _ => noAlloc
  burstOvh := 46
  olt := false
  newEn := 1
  newEnCur := 1
  newAct := false
  actOnus := 0
  lastOnu := 0
  singleOnuEn := 1
  singleOnuOk := false
  doTimerEn := 0
  frameCnt := 0

/-! ## Mails -/

/-- The mails that set what a frame reads. -/
inductive HostMail where
  | timerEn (getEn doEn : ℕ)
  | onuState (onu state : ℕ)
  | onuUsFec (onu fec : ℕ)
  | tcontDba (tcont : Fin 128) (allocId dbaType fixBw assureBw maxBw : ℕ)
  | tcontState (tcont : Fin 128) (valid : ℕ)
  | mappingMode (mode : ℕ)
  | oltMode (mode : ℕ)
  | allBandToSingleOnu (en : ℕ)
  | newDbaEn (en : ℕ)

theorem tcont_lt (i : ℕ) : i % 128 < 128 := Nat.mod_lt _ (by decide)

/-- The T-CONT of a number -/
def tcontOf (i : ℕ) : Fin 128 := ⟨i % 128, tcont_lt i⟩

/-- The part of a mail that goes to the T-CONT table. -/
def HostMail.table : HostMail → Option Mail
  | timerEn getEn _ => some (.timerEn getEn)
  | onuState onu state => some (.onuState onu state)
  | onuUsFec onu fec => some (.onuUsFec onu fec)
  | tcontDba tcont allocId dbaType fixBw assureBw maxBw =>
    some (.tcontDba tcont allocId dbaType fixBw assureBw maxBw)
  | tcontState tcont valid => some (.tcontState tcont valid)
  | mappingMode mode => some (.mappingMode mode)
  | oltMode _ => none
  | allBandToSingleOnu _ => none
  | newDbaEn _ => none

/-- What a mail sets besides. -/
def HostMail.set (s : Core) : HostMail → Core
  | timerEn _ doEn => { s with doTimerEn := doEn }
  | onuState _ _ => s
  | onuUsFec _ _ => s
  | tcontDba _ _ _ _ _ _ => s
  | tcontState _ _ => s
  | mappingMode _ => s
  | oltMode mode =>
    if mode = 1 then { s with burstOvh := 75, olt := true }
    else { s with burstOvh := 46, olt := false }
  | allBandToSingleOnu en => { s with singleOnuEn := en }
  | newDbaEn en => { s with newEn := en }

/-- A mail is handled. -/
def Core.mail (s : Core) (m : HostMail) : Core :=
  m.set { s with dba := (m.table.map (dbaMailSet s.dba)).getD s.dba }

/-! ## The configuration of a frame -/

/-- `dba_new_mode_update` -/
def dbaNewModeUpdate (s : Core) : Core :=
  let active := (List.range (dbaMap s.dba.tcont.mode).nOnu).filter fun i => (s.dba.run i).valid
  { s with
    actOnus := active.length
    lastOnu := active.getLastD s.lastOnu
    newAct := active.length = 4 ∧ s.newEn ≠ 0 ∧
      active.countP (fun i => (s.dba.run i).fec) = 0 ∧ s.olt = false }

/-- `dba_single_onu_check` -/
def dbaSingleOnuCheck (s : Core) : Bool :=
  let m := dbaMap s.dba.mode
  let tcs := (List.range m.nTc).map fun t => s.dba.tcont.cfg (tcontIdx m s.lastOnu t)
  tcs.countP TcontCfg.valid = 2 ∧ tcs.countP TcontCfg.fec = 0

/-- The new DBA mode is taken over. -/
def Core.takeMode (s : Core) : Core :=
  if s.newEnCur ≠ s.newEn then { dbaNewModeUpdate s with newEnCur := s.newEn } else s

/-- A changed table is taken over, with the value of `FTTR_MAP_MODE`. -/
def Core.takeTable (s : Core) (v : ℕ) : Core :=
  if s.dba.tcont.changed then
    let s := dbaNewModeUpdate { s with dba := dbaFrameHandler s.dba v }
    if s.singleOnuEn ≠ 0 then
      { s with singleOnuOk := if s.actOnus = 1 then dbaSingleOnuCheck s else false }
    else s
  else s

/-! ## Reports -/

/-- `struct dba_hw_rpt` -/
structure HwRpt where
  nonIdle : ℕ
  bwmapByte : ℕ
  /-- 14:0 dbru, 26:15 alloc id -/
  word : ℕ

/-- `dba_rpt_store` -/
def dbaRptStore (mode : ℕ) (alloc : ℕ → Alloc) (hw : HwRpt) : ℕ → Alloc :=
  let m := dbaMap mode
  let aid := hw.word / 2 ^ 15 % 2 ^ 12
  let i := tcontIdx m (aid % m.nOnu) ((aid &&& m.tcMask) >>> m.tcShift)
  if aid = 0xFF then alloc
  else Function.update alloc i
    (dbaRptPush (alloc i) ⟨hw.nonIdle, hw.bwmapByte, hw.word % 2 ^ 15⟩)

/-! ## Frames -/

/-- What a frame finds: `FTTR_MAP_MODE`, the reports queued, and what the
    writer of a two-frame map leaves in the grants. -/
structure Frame where
  mapMode : ℕ
  reports : List HwRpt
  regrant : ℕ → ℤ

/-- The first part of `dba_frame_handler`, for which the drain is on -/
def Core.drain (s : Core) (f : Frame) : Core :=
  if s.dba.getTimerEn ≠ 0 then
    let s := s.takeMode.takeTable f.mapMode
    { s with alloc := f.reports.foldl (dbaRptStore s.dba.mode) s.alloc }
  else s

/-- The frame writes a map. -/
def Core.writes (s : Core) : Prop := s.frameCnt % 2 = 1 ∧ s.doTimerEn ≠ 0

instance (s : Core) : Decidable s.writes := inferInstanceAs (Decidable (_ ∧ _))

/-- One ONU has the frame. -/
def Core.single (s : Core) : Prop := s.singleOnuOk = true ∧ s.singleOnuEn ≠ 0

instance (s : Core) : Decidable s.single := inferInstanceAs (Decidable (_ ∧ _))

/-- T-CONT 0 fixed, T-CONT 1 takes the frame. -/
def singleOnu (m : DbaMap) (onu : ℕ) (alloc : ℕ → Alloc) : ℕ → Alloc :=
  let i1 := tcontIdx m onu 0
  let i2 := tcontIdx m onu 1
  let alloc := Function.update alloc i1 { alloc i1 with curBw := 90 }
  Function.update alloc i2 { alloc i2 with curBw := 19274, st := 3 }

/-- The burst overhead and the grants of a map -/
def Core.request (s : Core) : Core :=
  let m := dbaMap s.dba.tcont.mode
  let ovh := nextBurstOvh s.olt s.burstOvh m s.dba.run
  let alloc := if s.single then singleOnu (dbaMap s.dba.mode) s.lastOnu s.alloc
    else dbaBwRequest s.newAct s.olt (dbaBudgetCalc s.newAct m s.dba.run ovh s.actOnus)
      s.dba.run s.alloc
  { s with burstOvh := ovh, alloc := alloc }

/-- What `dba_bwmap_switch` leaves in the grants; they do not depend on
    the staged word or the counter. -/
def mapGrants (g : Settings) (cfg : Table) (bw : ℕ → ℤ) : ℕ → ℤ :=
  ((List.range (dbaMap g.mode).nOnu).foldl (switchOnu g cfg)
    (bw, ⟨⟨false, false, false, 0, false, 0⟩, 0, 0, []⟩)).1

/-- The map is written. -/
def Core.write (s : Core) (f : Frame) : Core :=
  let bw := if s.newAct then f.regrant
    else mapGrants ⟨s.burstOvh, if s.olt then 1 else 0, s.dba.tcont.mode⟩ s.dba.run
      fun i => (s.alloc i).curBw
  { s with alloc := fun i => { s.alloc i with curBw := bw i } }

/-- `dba_frame_handler` -/
def Core.frame (s : Core) (f : Frame) : Core :=
  let s := s.drain f
  let s := if s.writes then s.request.write f else s
  { s with frameCnt := (s.frameCnt + 1) % 2 ^ 32 }

/-- Taking over the configuration leaves the contexts and the count. -/
theorem takeMode_keeps (s : Core) :
    s.takeMode.alloc = s.alloc ∧ s.takeMode.frameCnt = s.frameCnt := by
  unfold Core.takeMode
  split_ifs <;> exact ⟨rfl, rfl⟩

theorem takeTable_keeps (s : Core) (v : ℕ) :
    (s.takeTable v).alloc = s.alloc ∧ (s.takeTable v).frameCnt = s.frameCnt := by
  unfold Core.takeTable
  by_cases hch : s.dba.tcont.changed = true
  · rw [if_pos hch]
    dsimp only
    split_ifs <;> exact ⟨rfl, rfl⟩
  · rw [if_neg hch]
    exact ⟨rfl, rfl⟩

theorem drain_frameCnt (s : Core) (f : Frame) : (s.drain f).frameCnt = s.frameCnt := by
  unfold Core.drain
  split_ifs
  · exact (takeTable_keeps _ _).2.trans (takeMode_keeps s).2
  · rfl

/-! ## The system -/

/-- Host mails and frames -/
inductive CoreAct where
  | mail (m : HostMail)
  | frame (f : Frame)

def Core.next (s : Core) : CoreAct → Core
  | .mail m => s.mail m
  | .frame f => s.frame f

/-- The runs of mails and frames, from boot. -/
def core5 : StepSystem Core CoreAct where
  init s := ∃ v, s = core5DbaMain v
  step s a s' := s' = s.next a

/-- A run that no guard keeps from its mails goes on with them. -/
theorem reachable_mails {G : Core → CoreAct → Prop} {s : Core} (hmail : ∀ s m, G s (.mail m))
    (ms : List HostMail) (h : (core5.guarded G).Reachable s) :
    (core5.guarded G).Reachable (ms.foldl Core.mail s) := by
  induction ms generalizing s with
  | nil => exact h
  | cons m ms ih => exact ih (.step (.mail m) h ⟨hmail s m, rfl⟩)

end ClankerNPU.Dba
