import ClankerNPU.Dba.Fec
import ClankerNPU.Dba.Sort

/-! # The map of two frames

    With four ONUs the new DBA writes one map that spans two upstream
    frames: the ONUs by growing grant, T-CONT 0 and T-CONT 1 of each, and
    an ONU that does not fit into the first frame is split over its end.
    The bank switch, the counters and the messages are left out. -/

namespace ClankerNPU.Dba

/-- `DBA_FRAME_LEN` -/
def frameLen : ℕ := 0x4BC2

/-- `BWMAP_END_WRAP` -/
def endWrap : ℕ := 1

/-- The map while it is built: `cur_bw` of the contexts, `dba_bwmap`, the
    locals `pos` and `wrap` of `dba_new_bwmap_switch`, `dba_cross_pos` and
    the entries written. -/
structure NewMap where
  bw : ℕ → ℤ
  ctrl : BwmapCtrl
  start : ℕ
  stop : ℕ
  pos : ℕ
  wrap : ℕ
  crossPos : ℕ
  out : List Entry

/-- `dba_bwmap_emit`; every entry of this map asks for a report. -/
def NewMap.emit (s : NewMap) (c : TcontCfg) (ploamu : Bool) (endMark : ℕ) : NewMap :=
  let ctrl : BwmapCtrl :=
    { s.ctrl with dbru := true, ploamu := ploamu, aid := c.allocId % 2 ^ 12, endMark := endMark }
  { s with ctrl := ctrl, out := s.out ++ [⟨s.start, s.stop, ctrl⟩] }

/-- `start` and `stop` of a grant at `pos` -/
def NewMap.place (s : NewMap) (bw : ℤ) : NewMap :=
  { s with start := u16 s.pos, stop := u16 ((u16 s.pos : ℤ) - 1 + bw) }

/-- `dba_bwmap_short`, for one slot of the list -/
def dbaBwmapShort (m : DbaMap) (cfg : Table) (s : NewMap) (onu : ℕ) (lastOnu : Bool) : NewMap :=
  let idx := tcontIdx m onu 1
  let more := (cfg idx).valid
  let s := { s with start := u16 s.pos, stop := u16 ((u16 s.pos : ℤ) + 26) }
  let s := s.emit (cfg onu) true (if lastOnu && !more then endLast else 0)
  let s :=
    if more then
      let pos := s.stop + 1
      let s := { s with pos := pos, start := u16 pos, stop := u16 ((pos : ℤ) + 1) }
      s.emit (cfg idx) false (if lastOnu then endLast else 0)
    else s
  { s with pos := if lastOnu then s.pos else s.stop + 47, crossPos := 0 }

/-- `dba_pair_end`: the position goes on, the end flags of the entry, and
    whether the map crossed into the other frame -/
def dbaPairEnd (s : NewMap) (last wrapEnd more : Bool) : NewMap × ℕ × Bool :=
  if s.wrap = 0 then
    if last && !more then ({ s with pos := 0, wrap := 1 }, endWrap, true)
    else ({ s with pos := s.stop + if last || more then 1 else 47 }, 0, false)
  else if s.wrap = 1 then
    if wrapEnd && !more then ({ s with pos := 0, wrap := 0 }, endLast, true)
    else ({ s with pos := s.stop + if wrapEnd || more then 1 else 47 }, 0, false)
  else (s, s.ctrl.endMark, false)

/-- `dba_bwmap_pair` -/
def dbaBwmapPair (m : DbaMap) (cfg : Table) (s : NewMap) (onu : ℕ) (last wrapEnd : Bool) : NewMap :=
  let idx := tcontIdx m onu 1
  let saved := s.pos
  let e := dbaPairEnd (s.place (s.bw onu)) last wrapEnd (cfg idx).valid
  let s := e.1.emit (cfg onu) true e.2.1
  if (cfg idx).valid then
    let e := dbaPairEnd (s.place (s.bw idx)) last wrapEnd false
    let s := if e.2.2 then { e.1 with crossPos := saved } else e.1
    s.emit (cfg idx) false e.2.1
  else s

/-- `dba_bwmap_fill` -/
def dbaBwmapFill (m : DbaMap) (cfg : Table) (s : NewMap) (onu : ℕ) : NewMap :=
  let idx := tcontIdx m onu 1
  let saved := s.pos
  let s := (s.place (s.bw onu)).emit (cfg onu) true 0
  let pos := s.stop + 1
  let s :=
    { s with
      pos := pos
      start := u16 pos
      stop := u16 ((u16 pos : ℤ) - 1 + ((frameLen : ℤ) - pos))
      bw := Function.update s.bw idx (s32 ((frameLen : ℤ) - pos)) }
  { s.emit (cfg idx) false endLast with crossPos := saved }

/-- The entry of T-CONT 0 that ends the first frame, and the next frame
    opened: the first and the second branch of either half of
    `dba_cross_first_frame` -/
def NewMap.endFrame (s : NewMap) (c : TcontCfg) : NewMap :=
  let start := u16 s.pos
  let last := u16 ((start : ℤ) - 1)
  let rem16 := u16 ((frameLen : ℤ) - s.pos)
  let odd := s.pos % 2
  let s := { s with start := start, stop := min ((last + rem16) % 2 ^ 16) stopMax }
  { s.emit c true endWrap with pos := odd, wrap := 1, start := odd }

/-- T-CONT 0 split over the frame end: the first branch of either half,
    up to the start of T-CONT 1 -/
def NewMap.splitFirst (s : NewMap) (c : TcontCfg) (bw0 : ℤ) : NewMap :=
  let remain := u32 ((frameLen : ℤ) - s.pos)
  let s := s.endFrame c
  let stop :=
    if 14 < u32 (bw0 - remain) then u16 ((s.pos : ℤ) - u16 remain - 1 + bw0) else s.pos + 14
  let s := { s with stop := stop }.emit c true 0
  { s with pos := s.stop + 1, start := u16 ((s.stop : ℤ) + 1) }

/-- T-CONT 0 placed and T-CONT 1 split over the frame end: the third
    branch of either half, up to the start of the second piece -/
def NewMap.splitSecond (s : NewMap) (c0 c1 : TcontCfg) (bw0 : ℤ) : NewMap :=
  let start := u16 s.pos
  let last := u16 ((start : ℤ) - 1)
  let rem16 := u16 ((frameLen : ℤ) - s.pos)
  let odd := s.pos % 2
  let s := { s with start := start, stop := u16 ((last : ℤ) + bw0) }.emit c0 true 0
  let stop := u16 ((s.stop : ℤ) + rem16 - bw0)
  let s := { s with start := u16 ((s.stop : ℤ) + 1), stop := min stop stopMax }
  { s.emit c1 false endWrap with pos := odd, wrap := 1, start := odd }

/-- `dba_cross_first_frame`, for one slot of the list -/
def dbaCrossFirstFrame (m : DbaMap) (cfg : Table) (s : NewMap) (onu : ℕ) (lastOnu : Bool) :
    NewMap :=
  let idx := tcontIdx m onu 1
  let c0 := cfg onu
  let c1 := cfg idx
  let remain := u32 ((frameLen : ℤ) - s.pos)
  let bw0 := s.bw onu
  let bw1 := s.bw idx
  let overBw := u32 ((s.pos : ℤ) - frameLen + bw0 + bw1)
  if !lastOnu then
    let s :=
      if remain < u32 bw0 then
        let s := s.splitFirst c0 bw0
        { s with stop := u16 ((s.stop : ℤ) + bw1) }
      else if remain - u32 bw0 ≤ 7 then
        let s := s.endFrame c0
        { s with stop := u16 (bw1 + ((s.pos : ℤ) - 1)) }
      else
        let s := s.splitSecond c0 c1 bw0
        if 26 < overBw then { s with stop := u16 ((s.pos : ℤ) - u16 remain - 1 + bw0 + bw1) }
        else { s with stop := s.pos + 26 }
    let s := s.emit c1 false 0
    { s with pos := s.stop + 47 }
  else
    let s :=
      if remain < u32 bw0 then
        let s := s.splitFirst c0 bw0
        -- T-CONT 1 is clipped to the end of this frame
        let overBw := u32 ((frameLen : ℤ) - s.pos)
        if overBw < u32 bw1 then
          { s with
            stop := u16 ((s.stop : ℤ) + overBw)
            bw := Function.update s.bw idx (s32 overBw) }
        else { s with stop := u16 ((s.stop : ℤ) + bw1) }
      else if remain - u32 bw0 ≤ 7 then
        let s := s.endFrame c0
        if frameLen + 45 < u32 ((s.pos : ℤ) + 45 + bw1) then
          { s with stop := s.pos + stopMax, bw := Function.update s.bw idx frameLen }
        else { s with stop := u16 ((s.pos : ℤ) - 1 + bw1) }
      else
        let s := s.splitSecond c0 c1 bw0
        if overBw ≤ 26 then { s with stop := s.pos + 26 }
        else if frameLen + 45 < (overBw + (s.pos + 45)) % 2 ^ 32 then
          { s with
            stop := s.pos + stopMax
            bw := Function.update s.bw idx (s32 ((frameLen : ℤ) - (bw0 - remain))) }
        else { s with stop := u16 ((s.pos : ℤ) - u16 remain - 1 + bw0 + bw1) }
    let s := s.emit c1 false endLast
    { s with crossPos := s.pos }

/-- An ONU gets at least 27 units. -/
def NewMap.atLeast (m : DbaMap) (cfg : Table) (s : NewMap) (onu v : ℕ) : NewMap :=
  let idx := tcontIdx m onu 1
  let i := if (cfg idx).valid then idx else onu
  if v ≤ 26 then { s with bw := Function.update s.bw i (s.bw i + (27 - v)) } else s

/-- One pass of the loop of `dba_new_bwmap_switch`, with the sum of the
    ONU's grants and its slot in the list -/
def newTurn (m : DbaMap) (cfg : Table) (actOnus : ℕ) (order : List ℕ) (bw : ℕ → ℕ) (s : NewMap)
    (onu k : ℕ) : NewMap :=
  let v := bw onu
  let lastOnu : Bool := k + 1 = actOnus
  let s := s.atLeast m cfg onu v
  if s.wrap = 0 then
    if 0x4BEF < (s.pos + v + 45) % 2 ^ 32 then dbaCrossFirstFrame m cfg s onu lastOnu
    else if lastOnu then
      let s := dbaBwmapPair m cfg s onu true false
      order.zipIdx.foldl (fun s p => dbaBwmapShort m cfg s p.1 (p.2 + 1 = actOnus))
        { s with pos := s.crossPos % 2 }
    else
      dbaBwmapPair m cfg s onu
        (s.pos + v = frameLen ∨ 0x4BA6 < (s.pos + v + 45) % 2 ^ 32) false
  else if 0x4BEF < (s.pos + 45 + v) % 2 ^ 32 then dbaBwmapFill m cfg s onu
  else dbaBwmapPair m cfg s onu false lastOnu

/-- `dba_new_bwmap_switch`, with the map mode, `dba_act_onus` and
    `dba_cross_pos`; the list has room for four ONUs. -/
def dbaNewBwmapSwitch (mode actOnus crossPos : ℕ) (cfg : Table) (alloc : ℕ → Alloc)
    (ctrl : BwmapCtrl) : NewMap :=
  let m := dbaMap mode
  let order := newOrder m cfg alloc
  let s : NewMap :=
    { bw := fun i => (alloc i).curBw
      ctrl := ctrl
      start := 0
      stop := 0
      pos := if crossPos % 2 = 1 then 1 else 0
      wrap := 0
      crossPos := crossPos
      out := [] }
  order.zipIdx.foldl (fun s p => newTurn m cfg actOnus order (onuGrants m cfg alloc) s p.1 p.2) s

/-! ## What a function writes -/

/-- An entry by the T-CONT it is for. -/
structure Slot where
  onu : ℕ
  tc : ℕ
  start : ℕ
  stop : ℕ
  endMark : ℕ

/-- The entry of a slot; the control word keeps the bits that
    `dba_bwmap_emit` does not set. -/
def Slot.entry (m : DbaMap) (cfg : Table) (ctrl : BwmapCtrl) (x : Slot) : Entry where
  start := x.start
  stop := x.stop
  ctrl :=
    { ctrl with
      dbru := true
      ploamu := x.tc = 0
      aid := (cfg (tcontIdx m x.onu x.tc)).allocId % 2 ^ 12
      endMark := x.endMark }

/-- `t` has the entries of `xs` behind those of `s`. -/
structure Wrote (m : DbaMap) (cfg : Table) (s t : NewMap) (xs : List Slot) : Prop where
  out : t.out = s.out ++ xs.map (Slot.entry m cfg s.ctrl)
  fec : t.ctrl.fec = s.ctrl.fec
  olt : t.ctrl.olt = s.ctrl.olt

variable {m : DbaMap} {cfg : Table} {s t u : NewMap} {xs ys : List Slot} {onu a b r : ℕ}
  {c : TcontCfg} {ploamu last wrapEnd : Bool} {mark : ℕ}

@[simp] theorem NewMap.emit_bw : (s.emit c ploamu mark).bw = s.bw := rfl
@[simp] theorem NewMap.emit_start : (s.emit c ploamu mark).start = s.start := rfl
@[simp] theorem NewMap.emit_stop : (s.emit c ploamu mark).stop = s.stop := rfl
@[simp] theorem NewMap.emit_pos : (s.emit c ploamu mark).pos = s.pos := rfl
@[simp] theorem NewMap.emit_wrap : (s.emit c ploamu mark).wrap = s.wrap := rfl
@[simp] theorem NewMap.emit_crossPos : (s.emit c ploamu mark).crossPos = s.crossPos := rfl

/-- Only the two kept bits of a control word show in an entry. -/
theorem Slot.entry_congr {ctrl ctrl' : BwmapCtrl} (hfec : ctrl'.fec = ctrl.fec)
    (holt : ctrl'.olt = ctrl.olt) (x : Slot) : x.entry m cfg ctrl' = x.entry m cfg ctrl := by
  simp [Slot.entry, hfec, holt]

theorem Wrote.nil (hout : t.out = s.out) (hctrl : t.ctrl = s.ctrl) : Wrote m cfg s t [] := by
  constructor <;> simp [hout, hctrl]

theorem Wrote.trans (h : Wrote m cfg s t xs) (h' : Wrote m cfg t u ys) :
    Wrote m cfg s u (xs ++ ys) := by
  constructor
  case out =>
    have hentry : Slot.entry m cfg t.ctrl = Slot.entry m cfg s.ctrl :=
      funext fun x => x.entry_congr h.fec h.olt
    rw [h'.out, h.out, hentry, List.map_append, List.append_assoc]
  case fec => rw [h'.fec, h.fec]
  case olt => rw [h'.olt, h.olt]

/-- `dba_bwmap_emit` writes the staged slot. -/
theorem wrote_emit (x : Slot) (hout : t.out = s.out) (hctrl : t.ctrl = s.ctrl)
    (hstart : t.start = x.start) (hstop : t.stop = x.stop)
    (hc : c = cfg (tcontIdx m x.onu x.tc)) (hp : ploamu = decide (x.tc = 0))
    (hmark : mark = x.endMark) : Wrote m cfg s (t.emit c ploamu mark) [x] := by
  subst hc hp hmark
  constructor <;> simp [NewMap.emit, Slot.entry, hout, hctrl, hstart, hstop]

/-- A grant at `pos` takes the units from there on. -/
theorem NewMap.place_eq (ha : 1 ≤ a) (hroom : s.pos + a < 2 ^ 16) :
    s.place a = { s with start := s.pos, stop := s.pos + a - 1 } := by
  have hstart : u16 s.pos = s.pos := u16_natCast_of_lt (by omega)
  have hstop : u16 ((s.pos : ℤ) - 1 + a) = s.pos + a - 1 := u16_eq (by omega) (by omega)
  rw [NewMap.place, hstart, hstop]

/-! ### A pair -/

/-- T-CONT 1 follows right behind T-CONT 0. -/
theorem dbaPairEnd_more (hw : s.wrap = 0 ∨ s.wrap = 1) :
    dbaPairEnd s last wrapEnd true = ({ s with pos := s.stop + 1 }, 0, false) := by
  rcases hw with hw | hw <;> simp [dbaPairEnd, hw]

/-- The next ONU keeps its distance. -/
theorem dbaPairEnd_on (hw : s.wrap = 0 ∧ last = false ∨ s.wrap = 1 ∧ wrapEnd = false) :
    dbaPairEnd s last wrapEnd false = ({ s with pos := s.stop + 47 }, 0, false) := by
  rcases hw with ⟨hw, hl⟩ | ⟨hw, hl⟩ <;> simp [dbaPairEnd, hw, hl]

theorem dbaPairEnd_wrap (hw : s.wrap = 0) :
    dbaPairEnd s true wrapEnd false = ({ s with pos := 0, wrap := 1 }, endWrap, true) := by
  simp [dbaPairEnd, hw]

theorem dbaPairEnd_last (hw : s.wrap = 1) :
    dbaPairEnd s last true false = ({ s with pos := 0, wrap := 0 }, endLast, true) := by
  simp [dbaPairEnd, hw]

/-- The two slots of an ONU that fits. -/
def pairSlots (onu pos a b mark : ℕ) : List Slot :=
  [⟨onu, 0, pos, pos + a - 1, 0⟩, ⟨onu, 1, pos + a, pos + a + b - 1, mark⟩]

section
variable (hvalid : (cfg (tcontIdx m onu 1)).valid = true) (ha : s.bw onu = a)
  (hb : s.bw (tcontIdx m onu 1) = b) (ha1 : 1 ≤ a) (hb1 : 1 ≤ b) (hroom : s.pos + a + b < 2 ^ 16)
include hvalid ha hb ha1 hb1 hroom

/-- A pair up to the end of T-CONT 1. -/
theorem pair_eq (last wrapEnd : Bool) (hw : s.wrap = 0 ∨ s.wrap = 1) :
    ∃ t : NewMap, Wrote m cfg s t [⟨onu, 0, s.pos, s.pos + a - 1, 0⟩] ∧
      t.bw = s.bw ∧ t.start = s.pos + a ∧ t.stop = s.pos + a + b - 1 ∧ t.wrap = s.wrap ∧
      t.crossPos = s.crossPos ∧
      dbaBwmapPair m cfg s onu last wrapEnd =
        (if (dbaPairEnd t last wrapEnd false).2.2 then
          { (dbaPairEnd t last wrapEnd false).1 with crossPos := s.pos }
        else (dbaPairEnd t last wrapEnd false).1).emit (cfg (tcontIdx m onu 1)) false
          (dbaPairEnd t last wrapEnd false).2.1 := by
  set s₁ : NewMap :=
    { s with start := s.pos, stop := s.pos + a - 1, pos := s.pos + a - 1 + 1 } with hs₁
  have hw₁ : (s.place a).wrap = 0 ∨ (s.place a).wrap = 1 := hw
  have hend : dbaPairEnd (s.place a) last wrapEnd true = (s₁, 0, false) := by
    rw [dbaPairEnd_more hw₁, NewMap.place_eq ha1 (by omega)]
  have hplace : (s₁.emit (cfg onu) true 0).place b =
      { s₁.emit (cfg onu) true 0 with
        start := s.pos + a, stop := s.pos + a + b - 1, pos := s.pos + a } := by
    have hpos : s₁.pos = s.pos + a := by
      simp only [hs₁]
      omega
    rw [NewMap.place_eq hb1 (by simp only [NewMap.emit_pos, hpos]; omega), NewMap.emit_pos, hpos]
  refine ⟨(s₁.emit (cfg onu) true 0).place b, ?_, ?_, ?_, ?_, ?_, ?_, ?_⟩
  case refine_1 =>
    have hemit : Wrote m cfg s (s₁.emit (cfg onu) true 0) [⟨onu, 0, s.pos, s.pos + a - 1, 0⟩] := by
      apply wrote_emit <;> simp [hs₁, tcontIdx_zero]
    rw [hplace]
    exact ⟨hemit.out, hemit.fec, hemit.olt⟩
  case refine_7 =>
    simp only [dbaBwmapPair, ha, hvalid, hend, if_true]
    have hb' : (s₁.emit (cfg onu) true 0).bw (tcontIdx m onu 1) = b := hb
    rw [hb']
  all_goals rw [hplace]
  all_goals rfl

/-- A pair with more to come in its frame. -/
theorem pair_on (hw : s.wrap = 0 ∧ last = false ∨ s.wrap = 1 ∧ wrapEnd = false) :
    Wrote m cfg s (dbaBwmapPair m cfg s onu last wrapEnd) (pairSlots onu s.pos a b 0) ∧
      (dbaBwmapPair m cfg s onu last wrapEnd).pos = s.pos + a + b + 46 ∧
      (dbaBwmapPair m cfg s onu last wrapEnd).wrap = s.wrap ∧
      (dbaBwmapPair m cfg s onu last wrapEnd).bw = s.bw := by
  obtain ⟨t, hwrote, hbw, hstart, hstop, hwrap, -, heq⟩ :=
    pair_eq hvalid ha hb ha1 hb1 hroom last wrapEnd (hw.imp And.left And.left)
  have hend : dbaPairEnd t last wrapEnd false = ({ t with pos := t.stop + 47 }, 0, false) :=
    dbaPairEnd_on (by rwa [hwrap])
  rw [heq, hend]
  refine ⟨hwrote.trans (wrote_emit _ rfl rfl hstart hstop rfl rfl rfl), ?_, hwrap, hbw⟩
  simp only [NewMap.emit_pos, Bool.false_eq_true, if_false, hstop]
  omega

/-- A pair that ends the first frame. -/
theorem pair_wrap (hw : s.wrap = 0) :
    Wrote m cfg s (dbaBwmapPair m cfg s onu true wrapEnd) (pairSlots onu s.pos a b endWrap) ∧
      (dbaBwmapPair m cfg s onu true wrapEnd).pos = 0 ∧
      (dbaBwmapPair m cfg s onu true wrapEnd).wrap = 1 ∧
      (dbaBwmapPair m cfg s onu true wrapEnd).crossPos = s.pos ∧
      (dbaBwmapPair m cfg s onu true wrapEnd).bw = s.bw := by
  obtain ⟨t, hwrote, hbw, hstart, hstop, hwrap, -, heq⟩ :=
    pair_eq hvalid ha hb ha1 hb1 hroom true wrapEnd (.inl hw)
  rw [heq, dbaPairEnd_wrap (hwrap.trans hw)]
  exact ⟨hwrote.trans (wrote_emit _ rfl rfl hstart hstop rfl rfl rfl), rfl, rfl, rfl, hbw⟩

/-- A pair that ends the map. -/
theorem pair_last (hw : s.wrap = 1) :
    Wrote m cfg s (dbaBwmapPair m cfg s onu last true) (pairSlots onu s.pos a b endLast) := by
  obtain ⟨t, hwrote, -, hstart, hstop, hwrap, -, heq⟩ :=
    pair_eq hvalid ha hb ha1 hb1 hroom last true (.inr hw)
  rw [heq, dbaPairEnd_last (hwrap.trans hw)]
  exact hwrote.trans (wrote_emit _ rfl rfl hstart hstop rfl rfl rfl)

end

/-- The rest of the frame goes to T-CONT 1. -/
theorem fill_spec (ha : s.bw onu = a) (ha1 : 1 ≤ a) (hroom : s.pos + a < frameLen) :
    Wrote m cfg s (dbaBwmapFill m cfg s onu)
      [⟨onu, 0, s.pos, s.pos + a - 1, 0⟩, ⟨onu, 1, s.pos + a, stopMax, endLast⟩] := by
  unfold frameLen at hroom
  have hplace := NewMap.place_eq (s := s) ha1 (by omega)
  have hfirst : Wrote m cfg s ((s.place a).emit (cfg onu) true 0)
      [⟨onu, 0, s.pos, s.pos + a - 1, 0⟩] := by
    rw [hplace]
    apply wrote_emit <;> simp [tcontIdx_zero]
  have hstart : u16 ((s.pos + a - 1 + 1 : ℕ) : ℤ) = s.pos + a :=
    u16_eq (by omega) (by omega)
  have hstop : u16 (((s.pos + a : ℕ) : ℤ) - 1 + ((frameLen : ℤ) - (s.pos + a - 1 + 1 : ℕ))) =
      stopMax := by
    unfold frameLen stopMax
    exact u16_eq (by omega) (by omega)
  have hpos : ((s.place a).emit (cfg onu) true 0).stop = s.pos + a - 1 := by
    rw [hplace]
    rfl
  have hsecond := hfirst.trans (wrote_emit (t :=
    { (s.place a).emit (cfg onu) true 0 with
      pos := s.pos + a - 1 + 1
      start := s.pos + a
      stop := stopMax
      bw := Function.update s.bw (tcontIdx m onu 1)
        (s32 ((frameLen : ℤ) - (s.pos + a - 1 + 1 : ℕ))) })
    ⟨onu, 1, s.pos + a, stopMax, endLast⟩ rfl rfl rfl rfl rfl rfl rfl)
  unfold dbaBwmapFill
  simp only [ha, hpos, hstart, hstop]
  exact ⟨hsecond.out, hsecond.fec, hsecond.olt⟩

/-- The short slots of an ONU -/
def shortSlots (onu pos mark : ℕ) : List Slot :=
  [⟨onu, 0, pos, pos + 26, 0⟩, ⟨onu, 1, pos + 27, pos + 28, mark⟩]

/-- 27 units for T-CONT 0 and two for T-CONT 1 -/
theorem short_spec (hvalid : (cfg (tcontIdx m onu 1)).valid = true) (hroom : s.pos + 28 < 2 ^ 16) :
    Wrote m cfg s (dbaBwmapShort m cfg s onu last)
        (shortSlots onu s.pos (if last then endLast else 0)) ∧
      (last = false → (dbaBwmapShort m cfg s onu last).pos = s.pos + 75) := by
  have hstart : u16 s.pos = s.pos := u16_natCast_of_lt (by omega)
  have hstop : u16 ((s.pos : ℤ) + 26) = s.pos + 26 := u16_eq (by omega) (by omega)
  have hstart' : u16 ((s.pos + 26 + 1 : ℕ) : ℤ) = s.pos + 27 := u16_eq (by omega) (by omega)
  have hstop' : u16 (((s.pos + 26 + 1 : ℕ) : ℤ) + 1) = s.pos + 28 := u16_eq (by omega) (by omega)
  unfold dbaBwmapShort
  simp only [hvalid, if_true, hstart, hstop, Bool.not_true, Bool.and_false, Bool.false_eq_true,
    if_false, NewMap.emit_stop, hstart', hstop']
  constructor
  · have hfirst : Wrote m cfg s
        ({ s with start := s.pos, stop := s.pos + 26 }.emit (cfg onu) true 0)
        [⟨onu, 0, s.pos, s.pos + 26, 0⟩] := by
      apply wrote_emit <;> simp [tcontIdx_zero]
    have hsecond := hfirst.trans (wrote_emit (t :=
      { { s with start := s.pos, stop := s.pos + 26 }.emit (cfg onu) true 0 with
        pos := s.pos + 26 + 1, start := s.pos + 27, stop := s.pos + 28 })
      ⟨onu, 1, s.pos + 27, s.pos + 28, if last then endLast else 0⟩ rfl rfl rfl rfl rfl rfl rfl)
    exact ⟨hsecond.out, hsecond.fec, hsecond.olt⟩
  · intro hlast
    simp [hlast]

end ClankerNPU.Dba
