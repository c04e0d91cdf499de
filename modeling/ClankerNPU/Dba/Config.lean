import ClankerNPU.Lib.StepSystem
import ClankerNPU.Words
import Mathlib.Logic.Function.Basic

/-! # T-CONT configuration

    Host mails change a table of T-CONT configurations; the frame handler
    copies the table to the run-time contexts, after it has set the
    defaults of a new map mode. Only the mails and the part of the frame
    handler that touch the table are modelled. -/

namespace ClankerNPU.Dba

/-- `struct dba_tcont_cfg` -/
structure TcontCfg where
  /-- bit 0 valid, bit 1 FEC, bits 3:2 map mode -/
  flags : ℕ
  allocId : ℕ
  dbaType : ℕ
  fixBw : ℕ
  assureBw : ℕ
  maxBw : ℕ
  deriving DecidableEq, Repr

/-- `struct dba_map`, as far as the table uses it -/
structure DbaMap where
  tcMask : ℕ
  tcShift : ℕ
  idxShift : ℕ
  nOnu : ℕ
  nTc : ℕ
  deriving DecidableEq, Repr

/-- `dba_map_tbl`; a mode above 3 is taken for 3. -/
def dbaMap (mode : ℕ) : DbaMap :=
  if mode = 0 then ⟨0x0300, 8, 5, 32, 4⟩
  else if mode = 1 then ⟨0x0700, 8, 4, 16, 8⟩
  else if mode = 2 then ⟨0x0f00, 8, 3, 8, 16⟩
  else ⟨0x0200, 9, 6, 64, 2⟩

/-- `DBA_ALLOC_NUM` -/
def allocNum : ℕ := 128

abbrev Table := ℕ → TcontCfg

/-- `dba_tcont` -/
structure Tcont where
  changed : Bool
  mode : ℕ
  cfg : Table

/-- The data of `npu_dba.c` that the configuration goes through. -/
structure DbaData where
  tcont : Tcont
  /-- `dba_ctx[i].cfg` -/
  run : Table
  /-- `dba_mode` -/
  mode : ℕ
  getTimerEn : ℕ

/-- A T-CONT's default in `dba_tcont_init` -/
def tcontDefault (m : DbaMap) (v onu t : ℕ) (c : TcontCfg) : TcontCfg where
  flags := c.flags / 16 * 16 + v % 4 * 4
  allocId := (m.tcMask &&& (t <<< m.tcShift)) ||| onu
  dbaType := if t = 0 then 1 else 4
  fixBw := if t = 0 then 90 else 0
  assureBw := 0
  maxBw := if t = 0 then 0 else 19340

/-- The index of a T-CONT of an ONU. -/
def tcontIdx (m : DbaMap) (onu t : ℕ) : ℕ := t <<< m.idxShift ||| onu

/-- `dba_tcont_init`, with the value of `FTTR_MAP_MODE` -/
def dbaTcontInit (v : ℕ) (s : Tcont) : Tcont :=
  let m := dbaMap (v % 256)
  { changed := false
    mode := v % 256
    cfg := (List.range m.nOnu).foldl (fun cfg onu =>
      (List.range m.nTc).foldl (fun cfg t =>
        Function.update cfg (tcontIdx m onu t)
          (tcontDefault m v onu t (cfg (tcontIdx m onu t)))) cfg) s.cfg }

/-- `dba_tcont_load` -/
def dbaTcontLoad (s : DbaData) : DbaData :=
  { s with
    tcont := { s.tcont with changed := false }
    run := fun i => if i < allocNum then s.tcont.cfg i else s.run i }

/-- `dba_idx_onu`; none for an unknown mode. -/
def dbaIdxOnu (i mode : ℕ) : Option ℕ :=
  if mode = 0 then some (i % 32)
  else if mode = 1 then some (i % 16)
  else if mode = 2 then some (i % 8)
  else if mode = 3 then some (i % 64)
  else none

/-- The mails for the table, and the one that enables the drain. -/
inductive Mail where
  | timerEn (getEn : ℕ)
  | onuState (onu state : ℕ)
  | onuUsFec (onu fec : ℕ)
  | tcontDba (tcont : Fin 128) (allocId dbaType fixBw assureBw maxBw : ℕ)
  | tcontState (tcont : Fin 128) (valid : ℕ)
  | mappingMode (mode : ℕ)

/-- What a mail does to the table under a map mode. -/
def Mail.edit (mode : ℕ) (cfg : Table) : Mail → Table
  | timerEn _ => cfg
  | onuState onu state =>
    if state ≠ 0 then cfg
    else fun i =>
      if i < allocNum ∧ dbaIdxOnu i mode = some onu then
        { cfg i with flags := (cfg i).flags / 2 * 2 }
      else cfg i
  | onuUsFec onu fec => fun i =>
    if i < allocNum ∧ dbaIdxOnu i mode = some onu then
      { cfg i with flags := (cfg i).flags / 4 * 4 + fec % 2 * 2 + (cfg i).flags % 2 }
    else cfg i
  | tcontDba tcont allocId dbaType fixBw assureBw maxBw =>
    Function.update cfg tcont ⟨(cfg tcont).flags, allocId, dbaType, fixBw, assureBw, maxBw⟩
  | tcontState tcont valid =>
    Function.update cfg tcont
      { cfg tcont with flags := (cfg tcont).flags / 2 * 2 + valid % 2 }
  | mappingMode _ => cfg

/-- Whether a mail sets the `changed` flag. -/
def Mail.changes : Mail → Bool
  | timerEn _ => false
  | onuState _ state => state = 0
  | onuUsFec _ _ => true
  | tcontDba _ _ _ _ _ _ => true
  | tcontState _ _ => true
  | mappingMode _ => true

/-- The map mode a mail names. -/
def Mail.newMode : Mail → Option ℕ
  | timerEn _ => none
  | onuState _ _ => none
  | onuUsFec _ _ => none
  | tcontDba _ _ _ _ _ _ => none
  | tcontState _ _ => none
  | mappingMode mode => some (mode % 256)

/-- The drain's switch after a mail. -/
def Mail.nextTimerEn (getEn : ℕ) : Mail → ℕ
  | timerEn getEn' => getEn'
  | onuState _ _ => getEn
  | onuUsFec _ _ => getEn
  | tcontDba _ _ _ _ _ _ => getEn
  | tcontState _ _ => getEn
  | mappingMode _ => getEn

/-- `dba_mail_set` -/
def dbaMailSet (s : DbaData) (m : Mail) : DbaData :=
  { s with
    tcont := ⟨s.tcont.changed || m.changes, m.newMode.getD s.tcont.mode,
      m.edit s.tcont.mode s.tcont.cfg⟩
    getTimerEn := m.nextTimerEn s.getTimerEn }

/-- `dba_frame_handler`, with the value of `FTTR_MAP_MODE` at that time -/
def dbaFrameHandler (s : DbaData) (v : ℕ) : DbaData :=
  if s.getTimerEn ≠ 0 ∧ s.tcont.changed then
    if s.tcont.mode ≠ s.mode then
      let tcont := dbaTcontInit v s.tcont
      dbaTcontLoad { s with tcont := tcont, mode := tcont.mode }
    else dbaTcontLoad s
  else s

/-- A T-CONT before anything was written. -/
def noTcont : TcontCfg := ⟨0, 0, 0, 0, 0, 0⟩

/-- `dba_cfg_init` after boot -/
def dbaCfgInit (v : ℕ) : DbaData :=
  dbaTcontLoad
    { tcont := dbaTcontInit v ⟨false, 0, fun _ => noTcont⟩
      run := fun _ => noTcont
      mode := 0
      getTimerEn := 0 }

end ClankerNPU.Dba
