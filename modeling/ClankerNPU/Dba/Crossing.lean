import ClankerNPU.Dba.TwoFrames

/-! # An ONU over the frame end

    What `dba_cross_first_frame` writes, by its three branches: T-CONT 0
    is split over the end of the first frame, or ends it, or T-CONT 1 is
    split. A rest that is too short gets the least that is worth a burst,
    15 units for T-CONT 0 and 27 for T-CONT 1. -/

namespace ClankerNPU.Dba

variable {m : DbaMap} {cfg : Table} {s t u : NewMap} {xs ys l l' : List Slot} {x y : Slot}
  {onu tc a b r o p lo hi hi' mark mark' : ℕ}

/-! ## Slots of one ONU -/

/-- The units a T-CONT has in a list of slots. -/
def given (l : List Slot) (onu tc : ℕ) : ℕ :=
  ((l.filter fun x => x.onu = onu ∧ x.tc = tc).map fun x => x.stop + 1 - x.start).sum

@[simp] theorem given_nil : given [] onu tc = 0 := rfl

theorem given_cons :
    given (x :: l) onu tc =
      (if x.onu = onu ∧ x.tc = tc then x.stop + 1 - x.start else 0) + given l onu tc := by
  unfold given
  by_cases h : x.onu = onu ∧ x.tc = tc <;> simp [h]

@[simp] theorem given_append : given (l ++ l') onu tc = given l onu tc + given l' onu tc := by
  simp [given]

theorem given_slot : given [⟨onu, tc, lo, hi, mark⟩] onu tc = hi + 1 - lo := by
  simp [given_cons]

@[simp] theorem given_slot_one : given [⟨onu, 0, lo, hi, mark⟩] onu 1 = 0 := by
  simp [given_cons]

@[simp] theorem given_slot_zero : given [⟨onu, 1, lo, hi, mark⟩] onu 0 = 0 := by
  simp [given_cons]

theorem given_pair (ha : 1 ≤ a) (hb : 1 ≤ b) :
    given (pairSlots onu lo a b mark) onu 0 = a ∧ given (pairSlots onu lo a b mark) onu 1 = b := by
  simp only [pairSlots, given_cons, given_nil]
  constructor
  · simp
    omega
  · simp
    omega

/-- The last slot has the mark, and no other one has any. -/
def Closed (mark : ℕ) (l : List Slot) : Prop :=
  ∃ before x, l = before ++ [x] ∧ x.endMark = mark ∧ ∀ y ∈ before, y.endMark = 0

/-- Slots of one ONU from `lo` on and below `hi`, one behind the other. -/
structure Piece (onu lo hi mark : ℕ) (l : List Slot) : Prop where
  closed : Closed mark l
  own : ∀ x ∈ l, x.onu = onu ∧ x.tc < 2
  proper : ∀ x ∈ l, lo ≤ x.start ∧ x.start ≤ x.stop ∧ x.stop < hi
  apart : l.Pairwise fun x y => x.stop < y.start

theorem Piece.one (hown : x.onu = onu ∧ x.tc < 2) (hlo : lo ≤ x.start) (hx : x.start ≤ x.stop)
    (hhi : x.stop < hi) (hmark : x.endMark = mark) : Piece onu lo hi mark [x] := by
  constructor
  case closed => exact ⟨[], x, rfl, hmark, by simp⟩
  case own => simpa using hown
  case proper => simp [hlo, hx, hhi]
  case apart => exact List.pairwise_singleton _ _

/-- A piece goes on behind another one of its ONU. -/
theorem Piece.append (h : Piece onu lo hi 0 l) (h' : Piece onu hi hi' mark l') (hhi : hi ≤ hi')
    (hlo : lo ≤ hi) : Piece onu lo hi' mark (l ++ l') := by
  constructor
  case closed =>
    obtain ⟨before, x, rfl, hx, hbefore⟩ := h.closed
    obtain ⟨before', x', rfl, hx', hbefore'⟩ := h'.closed
    refine ⟨before ++ [x] ++ before', x', by simp, hx', fun y hy => ?_⟩
    rcases List.mem_append.mp hy with hy | hy
    · rcases List.mem_append.mp hy with hy | hy
      · exact hbefore y hy
      · rw [List.mem_singleton.mp hy, hx]
    · exact hbefore' y hy
  case own =>
    intro x hx
    exact (List.mem_append.mp hx).elim (h.own x) (h'.own x)
  case proper =>
    intro x hx
    rcases List.mem_append.mp hx with hx | hx
    · have := h.proper x hx
      omega
    · have := h'.proper x hx
      omega
  case apart =>
    refine List.pairwise_append.mpr ⟨h.apart, h'.apart, fun x hx y hy => ?_⟩
    have := h.proper x hx
    have := h'.proper y hy
    omega

theorem Piece.mono {lo' : ℕ} (h : Piece onu lo hi mark l) (hlo : lo' ≤ lo) (hhi : hi ≤ hi') :
    Piece onu lo' hi' mark l where
  closed := h.closed
  own := h.own
  proper := by
    intro x hx
    have := h.proper x hx
    omega
  apart := h.apart

/-- The slots of an ONU that fits -/
theorem piece_pair (ha : 1 ≤ a) (hb : 1 ≤ b) :
    Piece onu lo (lo + a + b) mark (pairSlots onu lo a b mark) := by
  have hfirst : Piece onu lo (lo + a) 0 [⟨onu, 0, lo, lo + a - 1, 0⟩] := by
    apply Piece.one <;> dsimp only <;> omega
  have hsecond : Piece onu (lo + a) (lo + a + b) mark
      [⟨onu, 1, lo + a, lo + a + b - 1, mark⟩] := by
    apply Piece.one <;> dsimp only <;> omega
  exact hfirst.append hsecond (by omega) (by omega)

theorem piece_short : Piece onu lo (lo + 29) mark (shortSlots onu lo mark) := by
  have hfirst : Piece onu lo (lo + 27) 0 [⟨onu, 0, lo, lo + 26, 0⟩] := by
    apply Piece.one <;> dsimp only <;> omega
  have hsecond : Piece onu (lo + 27) (lo + 29) mark [⟨onu, 1, lo + 27, lo + 28, mark⟩] := by
    apply Piece.one <;> dsimp only <;> omega
  exact hfirst.append hsecond (by omega) (by omega)

/-! ## The branches -/

theorem u32_natCast_of_lt (ha : a < 2 ^ 32) : u32 a = a := by
  unfold u32
  omega

/-- The units a frame has left, in both widths -/
theorem rest_eq (hr : p + r = frameLen) :
    u32 ((frameLen : ℤ) - p) = r ∧ u16 ((frameLen : ℤ) - p) = r := by
  unfold frameLen at *
  constructor
  · unfold u32
    omega
  · exact u16_eq (by omega) (by omega)

/-- What a grant lacks in the first frame -/
theorem lack_eq (hra : r ≤ a) (ha : a < 2 ^ 32) : u32 ((a : ℤ) - r) = a - r := by
  unfold u32
  omega

section
variable (hr : s.pos + r = frameLen) (hr1 : 1 ≤ r) (ho : s.pos % 2 = o)
include hr hr1 ho

/-- T-CONT 0 takes the units up to the frame end. -/
theorem endFrame_spec :
    Wrote m cfg s (s.endFrame (cfg onu)) [⟨onu, 0, s.pos, stopMax, endWrap⟩] ∧
      (s.endFrame (cfg onu)).pos = o ∧ (s.endFrame (cfg onu)).start = o ∧
      (s.endFrame (cfg onu)).wrap = 1 ∧ (s.endFrame (cfg onu)).bw = s.bw := by
  have hr' : s.pos + r = 0x4BC2 := hr
  have hstart : u16 s.pos = s.pos := u16_natCast_of_lt (by omega)
  have hstop : min ((u16 ((s.pos : ℤ) - 1) + r) % 2 ^ 16) stopMax = stopMax := by
    have : (u16 ((s.pos : ℤ) - 1) + r) % 2 ^ 16 = 0x4BC1 := by
      unfold u16
      omega
    rw [this]
    rfl
  unfold NewMap.endFrame
  simp only [hstart, (rest_eq hr).2, hstop, ho, NewMap.emit_bw, and_true]
  have hwrote : Wrote m cfg s
      ({ s with start := s.pos, stop := stopMax }.emit (cfg onu) true endWrap)
      [⟨onu, 0, s.pos, stopMax, endWrap⟩] := by
    apply wrote_emit <;> simp [tcontIdx_zero]
  exact ⟨hwrote.out, hwrote.fec, hwrote.olt⟩

/-- The rest of T-CONT 0 opens the next frame, with 15 units at least. -/
theorem splitFirst_spec (ha : r < a) (hroom : a + 16 < 2 ^ 16) :
    ∃ x, 15 ≤ x ∧ a ≤ r + x ∧ r + x ≤ a + 14 ∧
      Wrote m cfg s (s.splitFirst (cfg onu) a)
        [⟨onu, 0, s.pos, stopMax, endWrap⟩, ⟨onu, 0, o, o + x - 1, 0⟩] ∧
      (s.splitFirst (cfg onu) a).pos = o + x ∧ (s.splitFirst (cfg onu) a).start = o + x ∧
      (s.splitFirst (cfg onu) a).stop = o + x - 1 ∧ (s.splitFirst (cfg onu) a).wrap = 1 ∧
      (s.splitFirst (cfg onu) a).bw = s.bw := by
  obtain ⟨hwrote, hpos, hstart, hwrap, hbw⟩ := @endFrame_spec m cfg s onu r o hr hr1 ho
  have hrem16 : u16 r = r := u16_natCast_of_lt (by omega)
  obtain ⟨x, hx, hlow, hhigh, hstop⟩ : ∃ x, 15 ≤ x ∧ a ≤ r + x ∧ r + x ≤ a + 14 ∧
      (if 14 < a - r then u16 ((o : ℤ) - r - 1 + a) else o + 14) = o + x - 1 := by
    rcases Nat.lt_or_ge 14 (a - r) with hlong | hshort
    · refine ⟨a - r, by omega, by omega, by omega, ?_⟩
      rw [if_pos hlong]
      exact u16_eq (by omega) (by omega)
    · refine ⟨15, le_rfl, by omega, by omega, ?_⟩
      rw [if_neg hshort.not_gt]
      omega
  have hnext : u16 (((o + x - 1 : ℕ) : ℤ) + 1) = o + x := u16_eq (by omega) (by omega)
  have hsecond := hwrote.trans (wrote_emit (t := { s.endFrame (cfg onu) with stop := o + x - 1 })
    ⟨onu, 0, o, o + x - 1, 0⟩ rfl rfl hstart rfl (by rw [tcontIdx_zero]) rfl rfl)
  refine ⟨x, hx, hlow, hhigh, ?_⟩
  unfold NewMap.splitFirst
  simp only [(rest_eq hr).1, hrem16, lack_eq ha.le (by omega), hpos, hstop, NewMap.emit_stop,
    NewMap.emit_bw, NewMap.emit_wrap, hnext, hwrap, hbw, and_true]
  exact ⟨⟨hsecond.out, hsecond.fec, hsecond.olt⟩, by omega⟩

/-- T-CONT 1 takes the rest of the frame behind T-CONT 0, and what it
    lacks opens the next one. -/
theorem splitSecond_spec (ha1 : 1 ≤ a) (ha : a < r) :
    Wrote m cfg s (s.splitSecond (cfg onu) (cfg (tcontIdx m onu 1)) a)
        (pairSlots onu s.pos a (r - a) endWrap) ∧
      (s.splitSecond (cfg onu) (cfg (tcontIdx m onu 1)) a).pos = o ∧
      (s.splitSecond (cfg onu) (cfg (tcontIdx m onu 1)) a).start = o ∧
      (s.splitSecond (cfg onu) (cfg (tcontIdx m onu 1)) a).wrap = 1 ∧
      (s.splitSecond (cfg onu) (cfg (tcontIdx m onu 1)) a).bw = s.bw := by
  have hr' : s.pos + r = 0x4BC2 := hr
  have hstart : u16 s.pos = s.pos := u16_natCast_of_lt (by omega)
  have hstop : u16 ((u16 ((s.pos : ℤ) - 1) : ℤ) + a) = s.pos + a - 1 := by
    unfold u16
    omega
  have hnext : u16 (((s.pos + a - 1 : ℕ) : ℤ) + 1) = s.pos + a := u16_eq (by omega) (by omega)
  have hend : min (u16 (((s.pos + a - 1 : ℕ) : ℤ) + r - a)) stopMax = stopMax := by
    have : u16 (((s.pos + a - 1 : ℕ) : ℤ) + r - a) = 0x4BC1 := u16_eq (by omega) (by omega)
    rw [this]
    rfl
  have hslot : s.pos + a + (r - a) - 1 = stopMax := by
    unfold stopMax
    omega
  unfold NewMap.splitSecond
  rw [pairSlots, hslot]
  simp only [hstart, (rest_eq hr).2, hstop, NewMap.emit_stop, hnext, hend, ho, NewMap.emit_bw,
    and_true]
  have hfirst : Wrote m cfg s
      ({ s with start := s.pos, stop := s.pos + a - 1 }.emit (cfg onu) true 0)
      [⟨onu, 0, s.pos, s.pos + a - 1, 0⟩] := by
    apply wrote_emit <;> simp [tcontIdx_zero]
  have hsecond := hfirst.trans (wrote_emit (t :=
    { { s with start := s.pos, stop := s.pos + a - 1 }.emit (cfg onu) true 0 with
      start := s.pos + a, stop := stopMax })
    ⟨onu, 1, s.pos + a, stopMax, endWrap⟩ rfl rfl rfl rfl rfl rfl rfl)
  exact ⟨hsecond.out, hsecond.fec, hsecond.olt⟩

end

/-- T-CONT 0 up to the frame end -/
theorem piece_endFrame (hr : p + r = frameLen) (hr1 : 1 ≤ r) :
    Piece onu p frameLen endWrap [⟨onu, 0, p, stopMax, endWrap⟩] := by
  unfold frameLen at hr ⊢
  unfold stopMax
  apply Piece.one <;> dsimp only <;> omega

/-- Both T-CONTs up to the frame end -/
theorem piece_splitSecond (hr : p + r = frameLen) (ha1 : 1 ≤ a) (ha : a < r) :
    Piece onu p frameLen endWrap (pairSlots onu p a (r - a) endWrap) := by
  have hpair : Piece onu p (p + a + (r - a)) endWrap (pairSlots onu p a (r - a) endWrap) :=
    piece_pair ha1 (by omega)
  exact hpair.mono le_rfl (by omega)

/-! ## The crossing -/

/-- What a crossing writes: the slots `first` end the first frame, and
    those of `second` open the other one and stay below `hi`. -/
structure Split (m : DbaMap) (cfg : Table) (s t : NewMap) (onu mark hi : ℕ)
    (first second : List Slot) : Prop where
  wrote : Wrote m cfg s t (first ++ second)
  first : Piece onu s.pos frameLen endWrap first
  second : Piece onu 0 hi mark second

theorem Split.mono (h : Split m cfg s t onu mark hi xs ys) (hhi : hi ≤ hi') :
    Split m cfg s t onu mark hi' xs ys where
  wrote := h.wrote
  first := h.first
  second := h.second.mono le_rfl hhi

section
variable (hr : s.pos + r = frameLen) (hr1 : 1 ≤ r)
include hr hr1

/-- T-CONT 1 as a whole behind what the second frame has of T-CONT 0 -/
theorem split_pair (hwrote : Wrote m cfg s t
      [⟨onu, 0, s.pos, stopMax, endWrap⟩, ⟨onu, 0, lo, lo + a - 1, 0⟩])
    (hstart : t.start = lo + a) (ha : 1 ≤ a) (hb : 1 ≤ b)
    (hout : u.out =
      ({ t with stop := lo + a + b - 1 }.emit (cfg (tcontIdx m onu 1)) false mark).out)
    (hctrl : u.ctrl =
      ({ t with stop := lo + a + b - 1 }.emit (cfg (tcontIdx m onu 1)) false mark).ctrl) :
    Split m cfg s u onu mark (lo + a + b) [⟨onu, 0, s.pos, stopMax, endWrap⟩]
      (pairSlots onu lo a b mark) := by
  have hemit := hwrote.trans (wrote_emit (t := { t with stop := lo + a + b - 1 })
    ⟨onu, 1, lo + a, lo + a + b - 1, mark⟩ rfl rfl hstart rfl rfl rfl rfl)
  constructor
  case wrote => exact ⟨hout.trans hemit.out, hctrl ▸ hemit.fec, hctrl ▸ hemit.olt⟩
  case first => exact piece_endFrame hr hr1
  case second => exact (piece_pair ha hb).mono (Nat.zero_le _) le_rfl

omit hr hr1 in
/-- T-CONT 1, or its second piece, opens the second frame. -/
theorem split_one (hwrote : Wrote m cfg s t l) (hfirst : Piece onu s.pos frameLen endWrap l)
    (hstart : t.start = lo) (hb : 1 ≤ b)
    (hout : u.out = ({ t with stop := lo + b - 1 }.emit (cfg (tcontIdx m onu 1)) false mark).out)
    (hctrl : u.ctrl =
      ({ t with stop := lo + b - 1 }.emit (cfg (tcontIdx m onu 1)) false mark).ctrl) :
    Split m cfg s u onu mark (lo + b) l [⟨onu, 1, lo, lo + b - 1, mark⟩] := by
  have hemit := hwrote.trans (wrote_emit (t := { t with stop := lo + b - 1 })
    ⟨onu, 1, lo, lo + b - 1, mark⟩ rfl rfl hstart rfl rfl rfl rfl)
  constructor
  case wrote => exact ⟨hout.trans hemit.out, hctrl ▸ hemit.fec, hctrl ▸ hemit.olt⟩
  case first => exact hfirst
  case second => apply Piece.one <;> dsimp only <;> omega

/-- The units of T-CONT 0 in both frames, and of T-CONT 1 in the second -/
theorem given_split_pair (ha : 1 ≤ a) (hb : 1 ≤ b) :
    given ([⟨onu, 0, s.pos, stopMax, endWrap⟩] ++ pairSlots onu lo a b mark) onu 0 = r + a ∧
      given ([⟨onu, 0, s.pos, stopMax, endWrap⟩] ++ pairSlots onu lo a b mark) onu 1 = b := by
  have hunits : stopMax + 1 - s.pos = r := by
    unfold frameLen at hr
    unfold stopMax
    omega
  obtain ⟨h0, h1⟩ := @given_pair onu a b lo mark ha hb
  rw [given_append, given_append, given_slot, given_slot_one, h0, h1, hunits]
  exact ⟨rfl, Nat.zero_add b⟩

theorem given_split_endFrame (hb : 1 ≤ b) :
    given ([⟨onu, 0, s.pos, stopMax, endWrap⟩] ++ [⟨onu, 1, lo, lo + b - 1, mark⟩]) onu 0 = r ∧
      given ([⟨onu, 0, s.pos, stopMax, endWrap⟩] ++ [⟨onu, 1, lo, lo + b - 1, mark⟩]) onu 1 =
        b := by
  have hunits : stopMax + 1 - s.pos = r := by
    unfold frameLen at hr
    unfold stopMax
    omega
  rw [given_append, given_append, given_slot, given_slot_one, given_slot_zero, given_slot, hunits]
  omega

omit hr hr1 in
theorem given_split_second (ha : 1 ≤ a) (har : a < r) (hb : 1 ≤ b) :
    given (pairSlots onu p a (r - a) endWrap ++ [⟨onu, 1, lo, lo + b - 1, mark⟩]) onu 0 = a ∧
      given (pairSlots onu p a (r - a) endWrap ++ [⟨onu, 1, lo, lo + b - 1, mark⟩]) onu 1 + a =
        r + b := by
  obtain ⟨h0, h1⟩ := @given_pair onu a (r - a) p endWrap ha (by omega)
  rw [given_append, given_append, given_slot_zero, given_slot, h0, h1]
  omega

/-- What an ONU with others behind it gets: its grants, and the crossing
    takes 27 units at most beyond them. -/
def Passes (m : DbaMap) (cfg : Table) (s t : NewMap) (onu a b : ℕ) : Prop :=
  ∃ first second hi, Split m cfg s t onu 0 hi first second ∧ hi + frameLen ≤ s.pos + a + b + 27 ∧
    t.pos = hi + 46 ∧ t.wrap = 1 ∧ t.bw = s.bw ∧
    a ≤ given (first ++ second) onu 0 ∧ b ≤ given (first ++ second) onu 1

section
variable (ha : s.bw onu = a) (hb : s.bw (tcontIdx m onu 1) = b) (hb1 : 1 ≤ b)
  (hroom : s.pos + a + b + 27 < 2 * frameLen)
include ha hb hb1 hroom

/-- T-CONT 0 is split. -/
theorem pass_splitFirst (hlt : r < a) :
    Passes m cfg s (dbaCrossFirstFrame m cfg s onu false) onu a b := by
  unfold frameLen at hroom
  obtain ⟨x, hx, hlow, hhigh, hwrote, hpos, hstart, hstop, hwrap, hbw⟩ :=
    @splitFirst_spec m cfg s onu a r _ hr hr1 rfl hlt (by omega)
  have ho : s.pos % 2 ≤ 1 := by omega
  generalize s.pos % 2 = o at *
  have hnext : u16 (((o + x - 1 : ℕ) : ℤ) + b) = o + x + b - 1 := u16_eq (by omega) (by omega)
  obtain ⟨h0, h1⟩ := @given_split_pair s onu x b r o 0 hr hr1 (by omega) hb1
  unfold Passes dbaCrossFirstFrame
  simp only [ha, hb, (rest_eq hr).1, u32_natCast_of_lt (by omega : a < 2 ^ 32), Bool.not_false,
    if_true, if_pos hlt, hstop, hnext]
  refine ⟨_, _, _, split_pair hr hr1 hwrote hstart (by omega) hb1 rfl rfl, ?_, ?_, hwrap, hbw,
    ?_, h1.ge⟩
  · omega
  · simp only [NewMap.emit_stop]
    omega
  · rw [h0]
    exact hlow

omit hb1 in
/-- T-CONT 1 is split; its second piece has 27 units at least. -/
theorem pass_splitSecond (ha1 : 1 ≤ a) (hover : r < a + b) (hlong : a + 7 < r) :
    Passes m cfg s (dbaCrossFirstFrame m cfg s onu false) onu a b := by
  unfold frameLen at hroom
  have hr' : s.pos + r = 0x4BC2 := hr
  obtain ⟨hwrote, hpos, hstart, hwrap, hbw⟩ :=
    @splitSecond_spec m cfg s onu a r _ hr hr1 rfl ha1 (by omega)
  have ho : s.pos % 2 ≤ 1 := by omega
  generalize s.pos % 2 = o at *
  have hrest : u32 ((s.pos : ℤ) - frameLen + a + b) = a + b - r := by
    unfold u32 frameLen
    omega
  obtain ⟨y, hy, hlow, hhigh, hstop⟩ : ∃ y, 27 ≤ y ∧ a + b ≤ r + y ∧ r + y ≤ a + b + 26 ∧
      ∀ u : NewMap,
        (if 26 < a + b - r then { u with pos := o, stop := u16 ((o : ℤ) - r - 1 + a + b) }
          else { u with pos := o, stop := o + 26 }) = { u with pos := o, stop := o + y - 1 } := by
    rcases Nat.lt_or_ge 26 (a + b - r) with hmore | hless
    · refine ⟨a + b - r, by omega, by omega, by omega, fun u => ?_⟩
      have : u16 ((o : ℤ) - r - 1 + a + b) = o + (a + b - r) - 1 := u16_eq (by omega) (by omega)
      rw [if_pos hmore, this]
    · refine ⟨27, le_rfl, by omega, by omega, fun u => ?_⟩
      have : o + 26 = o + 27 - 1 := by omega
      rw [if_neg hless.not_gt, this]
  obtain ⟨h0, h1⟩ := @given_split_second onu a y r s.pos o 0 ha1 (by omega) (by omega)
  unfold Passes dbaCrossFirstFrame
  simp only [ha, hb, (rest_eq hr).1, u32_natCast_of_lt (by omega : a < 2 ^ 32), Bool.not_false,
    if_true, if_neg (by omega : ¬r < a), if_neg (by omega : ¬r - a ≤ 7), hrest,
    u16_natCast_of_lt (by omega : r < 2 ^ 16), hpos, hstop]
  refine ⟨_, _, _, split_one hwrote (piece_splitSecond hr ha1 (by omega)) hstart (by omega) rfl rfl,
    ?_, ?_, hwrap, hbw, h0.ge, ?_⟩
  · omega
  · simp only [NewMap.emit_stop]
    omega
  · omega

/-- T-CONT 0 ends the frame, T-CONT 1 opens the second one. -/
theorem pass_endFrame (hge : a ≤ r) (hshort : r ≤ a + 7) :
    Passes m cfg s (dbaCrossFirstFrame m cfg s onu false) onu a b := by
  unfold frameLen at hroom
  obtain ⟨hwrote, hpos, hstart, hwrap, hbw⟩ := @endFrame_spec m cfg s onu r _ hr hr1 rfl
  have ho : s.pos % 2 ≤ 1 := by omega
  generalize s.pos % 2 = o at *
  have hnext : u16 ((b : ℤ) + ((o : ℤ) - 1)) = o + b - 1 := u16_eq (by omega) (by omega)
  obtain ⟨h0, h1⟩ := @given_split_endFrame s onu b r o 0 hr hr1 hb1
  unfold Passes dbaCrossFirstFrame
  simp only [ha, hb, (rest_eq hr).1, u32_natCast_of_lt (by omega : a < 2 ^ 32), Bool.not_false,
    if_true, if_neg hge.not_gt, if_pos (by omega : r - a ≤ 7), hpos, hnext]
  refine ⟨_, _, _, split_one hwrote (piece_endFrame hr hr1) hstart hb1 rfl rfl, ?_, ?_, hwrap, hbw,
    ?_, h1.ge⟩
  · omega
  · simp only [NewMap.emit_stop]
    omega
  · rw [h0]
    exact hge

theorem cross_on (ha1 : 1 ≤ a) (hover : r < a + b) :
    Passes m cfg s (dbaCrossFirstFrame m cfg s onu false) onu a b := by
  rcases Nat.lt_or_ge r a with hlt | hge
  · exact pass_splitFirst hr hr1 ha hb hb1 hroom hlt
  rcases Nat.lt_or_ge (a + 7) r with hlong | hshort
  · exact pass_splitSecond hr hr1 ha hb hroom ha1 hover hlong
  · exact pass_endFrame hr hr1 ha hb hb1 hroom hge hshort

end

/-- A slot ends with its frame, or one unit behind it where it takes the
    frame from unit 1 on. -/
def Slot.Within (x : Slot) : Prop := x.stop ≤ stopMax ∨ x.start = 1 ∧ x.stop = stopMax + 1

/-- What the last ONU of a map that crosses gets: the grant of its T-CONT 0,
    and that of its T-CONT 1 or the second frame to its end. -/
def Ends (m : DbaMap) (cfg : Table) (s t : NewMap) (onu a b : ℕ) : Prop :=
  ∃ first second, Split m cfg s t onu endLast (frameLen + 1) first second ∧
    (∀ x ∈ second, x.Within) ∧ a ≤ given (first ++ second) onu 0 ∧
    (b ≤ given (first ++ second) onu 1 ∨ ∃ x ∈ second, x.tc = 1 ∧ stopMax ≤ x.stop)

section
variable (ha : s.bw onu = a) (hb : s.bw (tcontIdx m onu 1) = b) (hb1 : 1 ≤ b) (hb16 : b < 2 ^ 16)
include ha hb hb1 hb16

/-- T-CONT 0 is split, T-CONT 1 gets what the second frame has left. -/
theorem last_splitFirst (hlt : r < a) (hroom : s.pos + a + 16 ≤ 2 * frameLen) :
    Ends m cfg s (dbaCrossFirstFrame m cfg s onu true) onu a b := by
  have hr' : s.pos + r = 0x4BC2 := hr
  have hroom' : s.pos + a + 16 ≤ 2 * 0x4BC2 := hroom
  obtain ⟨x, hx, hlow, hhigh, hwrote, hpos, hstart, hstop, hwrap, hbw⟩ :=
    @splitFirst_spec m cfg s onu a r _ hr hr1 rfl hlt (by omega)
  have ho : s.pos % 2 ≤ 1 := by omega
  generalize s.pos % 2 = o at *
  obtain ⟨z, hz, hz1⟩ : ∃ z, o + x + z = frameLen ∧ 1 ≤ z :=
    ⟨0x4BC2 - (o + x), by unfold frameLen; omega, by omega⟩
  have hz' : o + x + z = 0x4BC2 := hz
  unfold Ends dbaCrossFirstFrame
  simp only [ha, hb, (rest_eq hr).1, u32_natCast_of_lt (by omega : a < 2 ^ 32),
    u32_natCast_of_lt (by omega : b < 2 ^ 32), Bool.not_true, Bool.false_eq_true, if_false,
    if_pos hlt, hpos, hstop, (rest_eq hz).1]
  split_ifs with hclip
  · have hnext : u16 (((o + x - 1 : ℕ) : ℤ) + z) = o + x + z - 1 := u16_eq (by omega) (by omega)
    obtain ⟨h0, h1⟩ := @given_split_pair s onu x z r o endLast hr hr1 (by omega) hz1
    rw [hnext]
    refine ⟨_, _, Split.mono (split_pair hr hr1 hwrote hstart (by omega) hz1 rfl rfl) (by omega),
      ?_, ?_, .inr ⟨_, List.mem_cons_of_mem _ List.mem_cons_self, rfl, ?_⟩⟩
    · simp only [pairSlots, List.forall_mem_cons, Slot.Within, stopMax]
      simp
      omega
    · rw [h0]
      exact hlow
    · simp only [stopMax]
      omega
  · have hnext : u16 (((o + x - 1 : ℕ) : ℤ) + b) = o + x + b - 1 := u16_eq (by omega) (by omega)
    obtain ⟨h0, h1⟩ := @given_split_pair s onu x b r o endLast hr hr1 (by omega) hb1
    rw [hnext]
    refine ⟨_, _, Split.mono (split_pair hr hr1 hwrote hstart (by omega) hb1 rfl rfl) (by omega),
      ?_, ?_, .inl h1.ge⟩
    · simp only [pairSlots, List.forall_mem_cons, Slot.Within, stopMax]
      simp
      omega
    · rw [h0]
      exact hlow

/-- T-CONT 1 is split. -/
theorem last_splitSecond (ha1 : 1 ≤ a) (hover : r < a + b) (hlong : a + 7 < r) :
    Ends m cfg s (dbaCrossFirstFrame m cfg s onu true) onu a b := by
  have hr' : s.pos + r = 0x4BC2 := hr
  have hlen : frameLen = 0x4BC2 := rfl
  obtain ⟨hwrote, hpos, hstart, hwrap, hbw⟩ :=
    @splitSecond_spec m cfg s onu a r _ hr hr1 rfl ha1 (by omega)
  have ho : s.pos % 2 ≤ 1 := by omega
  generalize s.pos % 2 = o at *
  have hpiece : Piece onu s.pos frameLen endWrap (pairSlots onu s.pos a (r - a) endWrap) :=
    piece_splitSecond hr ha1 (by omega)
  have hrest : u32 ((s.pos : ℤ) - frameLen + a + b) = a + b - r := by
    unfold u32 frameLen
    omega
  unfold Ends dbaCrossFirstFrame
  simp only [ha, hb, (rest_eq hr).1, u32_natCast_of_lt (by omega : a < 2 ^ 32), Bool.not_true,
    Bool.false_eq_true, if_false, if_neg (by omega : ¬r < a), if_neg (by omega : ¬r - a ≤ 7),
    hrest, u16_natCast_of_lt (by omega : r < 2 ^ 16), hpos,
    Nat.mod_eq_of_lt (by omega : a + b - r + (o + 45) < 2 ^ 32)]
  split_ifs with hleast hclip
  · obtain ⟨h0, h1⟩ := @given_split_second onu a 27 r s.pos o endLast ha1 (by omega) (by omega)
    refine ⟨_, _, Split.mono (split_one (b := 27) hwrote hpiece hstart (by omega) rfl rfl)
      (by omega), ?_, h0.ge, .inl ?_⟩
    · simp only [List.mem_singleton, forall_eq, Slot.Within, stopMax]
      omega
    · omega
  · obtain ⟨h0, h1⟩ :=
      @given_split_second onu a frameLen r s.pos o endLast ha1 (by omega) (by omega)
    refine ⟨_, _, Split.mono (split_one (b := frameLen) hwrote hpiece hstart (by omega) rfl rfl)
      (by omega), ?_, h0.ge, .inr ⟨_, List.mem_cons_self, rfl, ?_⟩⟩
    · simp only [List.mem_singleton, forall_eq, Slot.Within, stopMax]
      omega
    · simp only [stopMax]
      omega
  · have hnext : u16 ((o : ℤ) - r - 1 + a + b) = o + (a + b - r) - 1 :=
      u16_eq (by omega) (by omega)
    obtain ⟨h0, h1⟩ :=
      @given_split_second onu a (a + b - r) r s.pos o endLast ha1 (by omega) (by omega)
    rw [hnext]
    refine ⟨_, _, Split.mono (split_one hwrote hpiece hstart (by omega) rfl rfl) (by omega),
      ?_, h0.ge, .inl ?_⟩
    · simp only [List.mem_singleton, forall_eq, Slot.Within, stopMax]
      omega
    · omega

/-- T-CONT 0 ends the frame, T-CONT 1 opens the second one. -/
theorem last_endFrame (hge : a ≤ r) (hshort : r ≤ a + 7) :
    Ends m cfg s (dbaCrossFirstFrame m cfg s onu true) onu a b := by
  have hr' : s.pos + r = 0x4BC2 := hr
  have hlen : frameLen = 0x4BC2 := rfl
  obtain ⟨hwrote, hpos, hstart, hwrap, hbw⟩ := @endFrame_spec m cfg s onu r _ hr hr1 rfl
  have ho : s.pos % 2 ≤ 1 := by omega
  generalize s.pos % 2 = o at *
  have hpiece : Piece onu s.pos frameLen endWrap [⟨onu, 0, s.pos, stopMax, endWrap⟩] :=
    piece_endFrame hr hr1
  have hsum : u32 ((o : ℤ) + 45 + b) = o + 45 + b := by
    unfold u32
    omega
  unfold Ends dbaCrossFirstFrame
  simp only [ha, hb, (rest_eq hr).1, u32_natCast_of_lt (by omega : a < 2 ^ 32), Bool.not_true,
    Bool.false_eq_true, if_false, if_neg hge.not_gt, if_pos (by omega : r - a ≤ 7), hpos, hsum]
  split_ifs with hclip
  · obtain ⟨h0, h1⟩ := @given_split_endFrame s onu frameLen r o endLast hr hr1 (by omega)
    refine ⟨_, _, Split.mono (split_one (b := frameLen) hwrote hpiece hstart (by omega) rfl rfl)
      (by omega), ?_, ?_, .inr ⟨_, List.mem_cons_self, rfl, ?_⟩⟩
    · simp only [List.mem_singleton, forall_eq, Slot.Within, stopMax]
      omega
    · rw [h0]
      exact hge
    · simp only [stopMax]
      omega
  · have hnext : u16 ((o : ℤ) - 1 + b) = o + b - 1 := u16_eq (by omega) (by omega)
    obtain ⟨h0, h1⟩ := @given_split_endFrame s onu b r o endLast hr hr1 hb1
    rw [hnext]
    refine ⟨_, _, Split.mono (split_one hwrote hpiece hstart hb1 rfl rfl) (by omega), ?_, ?_,
      .inl h1.ge⟩
    · simp only [List.mem_singleton, forall_eq, Slot.Within, stopMax]
      omega
    · rw [h0]
      exact hge

theorem cross_last (ha1 : 1 ≤ a) (hover : r < a + b) (hroom : s.pos + a + 16 ≤ 2 * frameLen) :
    Ends m cfg s (dbaCrossFirstFrame m cfg s onu true) onu a b := by
  rcases Nat.lt_or_ge r a with hlt | hge
  · exact last_splitFirst hr hr1 ha hb hb1 hb16 hlt hroom
  rcases Nat.lt_or_ge (a + 7) r with hlong | hshort
  · exact last_splitSecond hr hr1 ha hb hb1 hb16 ha1 hover hlong
  · exact last_endFrame hr hr1 ha hb hb1 hb16 hge hshort

end

end

end ClankerNPU.Dba
