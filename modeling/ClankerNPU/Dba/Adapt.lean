import ClankerNPU.Dba.Config

/-! # The grant of one T-CONT

    The last two upstream reports of a T-CONT move its grant through a
    state machine: probe, settle, hold, grow and shrink. The state byte is
    modelled by its fields. -/

namespace ClankerNPU.Dba

/-! ## Reports -/

/-- `struct dba_rpt` -/
structure Rpt where
  nonIdle : ℕ
  bwmapByte : ℕ
  dbru : ℕ
  deriving DecidableEq, Repr

/-- The run-time part of `struct dba_alloc` -/
structure Alloc where
  /-- `ring_idx`, bits 3:0 -/
  rd : ℕ
  /-- `ring_idx`, bits 7:4 -/
  wr : ℕ
  ring0 : Rpt
  ring1 : Rpt
  stepCnt : ℕ
  growCnt : ℕ
  holdCnt : ℤ
  curBw : ℤ
  refDbru : ℕ
  idleAvg : ℕ
  /-- bits 2:0 of `state` -/
  st : ℕ
  /-- bits 5:3 of `state` -/
  grp : ℕ
  /-- `DBA_ST_DEC` -/
  dec : Bool
  deriving DecidableEq, Repr

/-- A zeroed context. -/
def noAlloc : Alloc := ⟨0, 0, ⟨0, 0, 0⟩, ⟨0, 0, 0⟩, 0, 0, 0, 0, 0, 0, 0, 0, false⟩

/-- `ring[i]` -/
def Alloc.ring (a : Alloc) (i : ℕ) : Rpt := if i = 0 then a.ring0 else a.ring1

/-- `dba_rpt_push` -/
def dbaRptPush (a : Alloc) (r : Rpt) : Alloc :=
  let wr := if a.wr + 1 = 2 then 0 else a.wr + 1
  let rd := if wr = a.rd then (if a.rd + 1 = 2 then 0 else a.rd + 1) else a.rd
  { a with
    rd := rd
    wr := wr
    ring0 := if wr = 0 then r else a.ring0
    ring1 := if wr = 0 then a.ring1 else r }

/-! ## The state machine -/

/-- What an adaptation starts from. -/
structure AdaptIn where
  cur : Rpt
  prev : Rpt
  gapR : ℕ
  gapW : ℕ
  acc : ℕ

/-- `need` -/
def AdaptIn.need (i : AdaptIn) : ℕ := i.cur.dbru * 48

/-- `avg` -/
def AdaptIn.avg (i : AdaptIn) : ℕ := i.acc / 2

/-- The larger `dbru` of the two reports. -/
def AdaptIn.mx (i : AdaptIn) : ℕ := max i.cur.dbru i.prev.dbru

/-- `mid` -/
def AdaptIn.mid (i : AdaptIn) : ℕ := (i.cur.dbru + i.prev.dbru) / 2

/-- The unused part of a grant, for a report without a backlog. -/
def gap (dbru used given : ℕ) : ℕ := if dbru = 0 ∧ used < given then u16 (given - used) else 0

/-- The reports and gaps of a T-CONT. -/
def Alloc.inputs (a : Alloc) (dual : Bool) : AdaptIn :=
  let cur := a.ring a.wr
  let prev := a.ring a.rd
  if dual then
    let ni := cur.nonIdle + prev.nonIdle
    let bwb := cur.bwmapByte + prev.bwmapByte
    let gapR := gap prev.dbru ni bwb
    let gapW := gap cur.dbru ni bwb
    ⟨cur, prev, gapR, gapW,
      if 7 < ni ∨ a.st ≠ 3 then (a.idleAvg + gapR + gapW) % 2 ^ 32
      else (a.idleAvg + gapR / 8 + gapW / 8) % 2 ^ 32⟩
  else
    let gapR := gap prev.dbru prev.nonIdle prev.bwmapByte
    let gapW := gap cur.dbru cur.nonIdle cur.bwmapByte
    let idle := (a.idleAvg + if 7 < prev.nonIdle ∨ a.st ≠ 3 then gapR else gapR / 8) % 2 ^ 32
    ⟨cur, prev, gapR, gapW,
      (idle + if 7 < cur.nonIdle ∨ a.st ≠ 3 then gapW else gapW / 8) % 2 ^ 32⟩

/-- `lim`: twice the grant, 2000 at least. -/
def dbaLim (bw : ℤ) : ℕ := if s32 (bw * 2) < 2000 then 2000 else u32 (bw * 2)

/-- `bw / 10 + 16` -/
def tenth (bw : ℤ) : ℕ := u32 (bw.tdiv 10 + 16)

/-- What a smaller backlog takes from the grant. -/
def dbruDrop (i : AdaptIn) : ℕ :=
  let d := i.prev.dbru - i.cur.dbru
  (if i.cur.dbru < d then d - i.cur.dbru else d) * 48 / 8

/-- A change of a grant, half of it in OLT mode. -/
def halved (olt : Bool) (d : ℕ) : ℕ := if olt then d / 2 else d

/-- State 1 -/
def adaptProbe (olt : Bool) (i : AdaptIn) (a : Alloc) : ℤ × Alloc :=
  let bw := a.curBw
  if i.gapW ≠ 0 ∨ i.gapR ≠ 0 then
    let d := if olt then i.avg * 2 / 16 else i.avg * 2 / 8
    (s32 (bw - d), { a with stepCnt := 2, st := 2, dec := true })
  else if a.refDbru < i.mx then
    let d := (i.mx - a.refDbru) * 48
    (s32 (bw + (if olt then d / 4 else d / 2 : ℕ)), { a with refDbru := i.mx, stepCnt := 0 })
  else if u32 (bw * 10) ≤ (i.need + dbaLim bw) % 2 ^ 32 then
    let d := if bw < 1000 then 1000 else u32 bw
    (s32 (bw + halved olt d), { a with stepCnt := 0 })
  else if i.cur.dbru < i.prev.dbru then
    (s32 (bw - halved olt (dbruDrop i)), { a with stepCnt := 2, st := 2, refDbru := i.mx })
  else (bw, { a with st := 2, refDbru := i.mx })

/-- State 2. The division is by the step counter; where that is 0 the
    quotient here is 0. -/
def adaptSettle (olt : Bool) (i : AdaptIn) (a : Alloc) : ℤ × Alloc :=
  let step := (a.stepCnt + 2) % 256
  let bw := a.curBw
  let dec := a.dec || 1 < i.acc
  if a.refDbru < i.mid ∨ 15 < step then
    (bw, { a with
      stepCnt := 0
      growCnt := 0
      holdCnt := 0
      refDbru := i.cur.dbru
      idleAvg := 0
      st := 3
      dec := dec })
  else if dec then
    (s32 (bw - halved olt (i.avg * 2 / step)), { a with stepCnt := step, dec := dec })
  else if i.prev.dbru ≤ i.cur.dbru then
    let d := (a.refDbru - i.mid) * 48
    (s32 (bw - halved olt (if 127 < d then d / 8 else 16)),
      { a with stepCnt := step, refDbru := i.mid })
  else (s32 (bw - halved olt (dbruDrop i)), { a with stepCnt := step, refDbru := i.mid })

/-- State 3, while it holds. -/
def adaptHoldStep (olt : Bool) (i : AdaptIn) (a : Alloc) : ℤ × Alloc :=
  let bw := a.curBw
  let down := (s32 (bw - halved olt (min i.avg 16)), { a with idleAvg := 0, dec := true })
  if a.dec then
    if i.acc ≤ 1 then (bw, a) else down
  else if i.mx ≠ 0 ∧ s32 (bw * 10) < s32 (i.mx * 48 + dbaLim bw) then (bw, a)
  else if i.acc ≤ 1 then
    (if i.mx < a.refDbru then s32 (bw - if olt then 8 else 16) else bw, a)
  else down

/-- State 3 -/
def adaptHold (olt : Bool) (i : AdaptIn) (a : Alloc) : ℤ × Alloc :=
  let a := if s32 (a.curBw * 10) < i.mx * 48 then { a with growCnt := 2, st := 4, refDbru := 0 }
    else { a with growCnt := 0 }
  let a := if a.st = 3 ∧ 16 < i.gapW ∧ 16 < i.gapR then { a with st := 5, stepCnt := 2 } else a
  if a.holdCnt < 0 then (a.curBw, a)
  else adaptHoldStep olt i { a with holdCnt := (a.holdCnt + 2 + 128) % 256 - 128 }

/-- What state 4 adds, and whether it goes on to state 1. -/
def growBy (i : AdaptIn) (a : Alloc) : ℕ × Bool :=
  let bw := a.curBw
  let d := if a.refDbru ≠ 0 then
      if a.refDbru < i.cur.dbru then (i.cur.dbru - a.refDbru) * 48 else tenth bw
    else u32 (i.cur.dbru * 48 - bw * 10)
  let far := u32 (dbaLim bw + bw * 2) < d
  let d := if ¬far ∧ tenth bw < d / 8 then tenth bw else d / 8
  (if i.avg < d then d - i.avg else 0, far)

/-- State 4 -/
def adaptGrow (olt : Bool) (i : AdaptIn) (a : Alloc) : ℤ × Alloc :=
  let bw := a.curBw
  let up (d st : ℕ) : ℤ × Alloc := (s32 (bw + halved olt d), { a with
    stepCnt := 0
    growCnt := 0
    holdCnt := 0
    refDbru := i.cur.dbru
    idleAvg := 0
    st := st
    dec := false })
  if i.cur.dbru * 48 ≤ s32 (bw * 10) then
    if i.cur.dbru ≤ 0x3ffe then (bw, { a with growCnt := 0, st := 3 }) else up 0 4
  else
    let grow := (a.growCnt + 2) % 256
    if grow ≤ 7 then (bw, { a with growCnt := grow })
    else
      let r := growBy i a
      up r.1 (if r.2 then 1 else 4)

/-- State 5 -/
def adaptShrink (olt : Bool) (i : AdaptIn) (a : Alloc) : ℤ × Alloc :=
  let bw := a.curBw
  if i.gapW ≤ 16 ∨ i.gapR ≤ 16 then (bw, { a with stepCnt := 0, st := 3 })
  else
    let step := (a.stepCnt + 2) % 256
    if step ≤ 7 then (bw, { a with stepCnt := step })
    else
      let far := tenth bw * 2 % 2 ^ 32 < i.acc / 16
      let d := if ¬far ∧ i.acc / 16 < tenth bw then i.acc / 16 else tenth bw
      (s32 (bw - halved olt d), { a with
        stepCnt := if far then 0 else step
        growCnt := 0
        holdCnt := 0
        refDbru := min i.cur.dbru i.prev.dbru
        idleAvg := 0
        st := if far then 2 else 5
        dec := true })

/-- Any other state -/
def adaptStart (olt : Bool) (i : AdaptIn) (a : Alloc) : ℤ × Alloc :=
  ((if olt then i.need / 4 else i.need / 2 : ℕ), { a with st := 1, refDbru := i.cur.dbru })

/-- The switch over the state. -/
def adaptState (olt : Bool) (i : AdaptIn) (a : Alloc) : ℤ × Alloc :=
  match a.st with
  | 1 => adaptProbe olt i a
  | 2 => adaptSettle olt i a
  | 3 => adaptHold olt i a
  | 4 => adaptGrow olt i a
  | 5 => adaptShrink olt i a
  | _ => adaptStart olt i a

/-! ## The contract -/

/-- The clamp to the T-CONT contract. -/
def dbaClamp (dual : Bool) (c : TcontCfg) (bw : ℤ) : ℤ :=
  let bw := max bw 2
  if c.dbaType = 3 ∨ c.dbaType = 4 ∨ c.dbaType = 5 then
    let bw := min bw (if dual then c.maxBw * 2 else c.maxBw)
    if c.dbaType = 5 ∧ bw < c.fixBw then c.fixBw else bw
  else if c.dbaType = 2 then min bw c.assureBw
  else bw

/-- The alloc id is a default T-CONT 0 id. -/
def TcontCfg.defaultId (c : TcontCfg) : Prop := c.allocId < if c.flags / 4 % 4 = 3 then 64 else 32

instance (c : TcontCfg) : Decidable c.defaultId := inferInstanceAs (Decidable (_ < _))

/-- The minimum of a default T-CONT 0, and its maximum over two frames. -/
def dbaFloor (dual : Bool) (c : TcontCfg) (bw : ℤ) : ℤ :=
  if ¬c.defaultId then bw
  else if dual then (if bw ≤ 14 then 15 else if 192 < bw then 192 else bw)
  else if bw < 27 then 27
  else bw

/-- A T-CONT without a new report, where one frame makes a map. -/
def Alloc.stale (a : Alloc) (dual : Bool) : Prop := dual = false ∧ a.rd = a.wr

instance (a : Alloc) (dual : Bool) : Decidable (a.stale dual) := inferInstanceAs (Decidable (_ ∧ _))

/-- `dba_alloc_adapt` -/
def dbaAllocAdapt (dual olt : Bool) (c : TcontCfg) (a : Alloc) : Alloc :=
  if a.stale dual then { a with curBw := if a.curBw = 0 then 2 else a.curBw }
  else
    let i := a.inputs dual
    let r := adaptState olt i { a with idleAvg := i.avg }
    { r.2 with
      rd := a.wr
      curBw := dbaFloor dual c (dbaClamp dual c r.1)
      st := if r.1 ≤ 8 then 0 else r.2.st }

end ClankerNPU.Dba
