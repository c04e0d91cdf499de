import ClankerNPU.Dba.Crossing

/-! # The two frames hold

    The map of two frames over a whole list of four ONUs. While the first
    frame is written the position keeps room for 27 units; once the map
    has crossed, the position is bounded by what the ONUs before took. -/

namespace ClankerNPU.Dba

variable {m : DbaMap} {cfg : Table} {s₀ s t u : NewMap} {first second l new : List Slot}
  {onu a b hi mark used actOnus k : ℕ} {placed order : List ℕ} {total : ℕ → ℕ}

/-! ## Rows -/

/-- Two slots do not meet, and those of different ONUs keep 46 units
    between them. -/
def Slot.Apart (x y : Slot) : Prop := x.stop < y.start ∧ (x.onu ≠ y.onu → x.stop + 46 < y.start)

/-- A frame that goes on at `pos`. -/
structure Row (l : List Slot) (pos : ℕ) : Prop where
  proper : ∀ x ∈ l, x.start ≤ x.stop ∧ x.stop ≤ stopMax
  guarded : ∀ x ∈ l, x.stop + 46 < pos
  marks : ∀ x ∈ l, x.endMark = 0
  apart : l.Pairwise Slot.Apart

/-- A frame that is written: its last slot has the mark. -/
structure FrameSlots (mark : ℕ) (l : List Slot) : Prop where
  closed : Closed mark l
  proper : ∀ x ∈ l, x.start ≤ x.stop ∧ x.Within
  apart : l.Pairwise Slot.Apart

theorem Row.nil {pos : ℕ} : Row [] pos := by
  constructor <;> simp

theorem Row.apart_append {pos : ℕ} (h : Row l pos) (hp : Piece onu pos hi mark new) :
    (l ++ new).Pairwise Slot.Apart := by
  refine List.pairwise_append.mpr ⟨h.apart, ?_, fun x hx y hy => ?_⟩
  · refine hp.apart.imp_of_mem fun {x y} hx hy hxy => ⟨hxy, fun hne => ?_⟩
    exact absurd ((hp.own x hx).1.trans (hp.own y hy).1.symm) hne
  · have := h.guarded x hx
    have := (hp.proper y hy).1
    exact ⟨by omega, fun _ => by omega⟩

/-- An ONU that fits goes behind the row. -/
theorem Row.append {pos : ℕ} (h : Row l pos) (hp : Piece onu pos hi 0 new) (hhi : hi ≤ frameLen) :
    Row (l ++ new) (hi + 46) := by
  have hlt : pos < hi := by
    obtain ⟨before, x, rfl, -⟩ := hp.closed
    have := hp.proper x (by simp)
    omega
  have hlen : frameLen = stopMax + 1 := rfl
  constructor
  case proper =>
    intro x hx
    rcases List.mem_append.mp hx with hx | hx
    · exact h.proper x hx
    · have := hp.proper x hx
      omega
  case guarded =>
    intro x hx
    rcases List.mem_append.mp hx with hx | hx
    · have := h.guarded x hx
      omega
    · have := hp.proper x hx
      omega
  case marks =>
    intro x hx
    rcases List.mem_append.mp hx with hx | hx
    · exact h.marks x hx
    · obtain ⟨before, y, rfl, hy, hbefore⟩ := hp.closed
      rcases List.mem_append.mp hx with hx | hx
      · exact hbefore x hx
      · rw [List.mem_singleton.mp hx, hy]
  case apart => exact h.apart_append hp

/-- An ONU with the mark ends the frame. -/
theorem Row.close {pos : ℕ} (h : Row l pos) (hp : Piece onu pos hi mark new)
    (hin : ∀ x ∈ new, x.Within) : FrameSlots mark (l ++ new) := by
  constructor
  case closed =>
    obtain ⟨before, x, rfl, hx, hbefore⟩ := hp.closed
    refine ⟨l ++ before, x, by simp, hx, fun y hy => ?_⟩
    exact (List.mem_append.mp hy).elim (h.marks y) (hbefore y)
  case proper =>
    intro x hx
    rcases List.mem_append.mp hx with hx | hx
    · exact ⟨(h.proper x hx).1, .inl (h.proper x hx).2⟩
    · exact ⟨(hp.proper x hx).2.1, hin x hx⟩
  case apart => exact h.apart_append hp

theorem Piece.within {lo : ℕ} (hp : Piece onu lo hi mark l) (hhi : hi ≤ frameLen) :
    ∀ x ∈ l, x.Within := by
  intro x hx
  have hlen : frameLen = stopMax + 1 := rfl
  have := hp.proper x hx
  exact .inl (by omega)

/-! ## The state between two ONUs -/

/-- The map has not crossed; `used` is what the ONUs took, with 46 units
    for each. -/
structure InFirst (m : DbaMap) (cfg : Table) (s₀ s : NewMap) (first : List Slot) (used : ℕ) :
    Prop where
  wrote : Wrote m cfg s₀ s first
  wrap : s.wrap = 0
  row : Row first s.pos
  pos : s.pos ≤ used + 1
  room : s.pos + 27 ≤ frameLen

/-- The map has crossed: the first frame is written. -/
structure InSecond (m : DbaMap) (cfg : Table) (s₀ s : NewMap) (first second : List Slot)
    (used : ℕ) : Prop where
  wrote : Wrote m cfg s₀ s (first ++ second)
  wrap : s.wrap = 1
  frame : FrameSlots endWrap first
  row : Row second s.pos
  pos : s.pos + frameLen ≤ used + 28

def Stage (m : DbaMap) (cfg : Table) (s₀ s : NewMap) (first second : List Slot) (used : ℕ) : Prop :=
  InFirst m cfg s₀ s first used ∧ second = [] ∨ InSecond m cfg s₀ s first second used

/-- The ONUs of `placed` have their grants, and only theirs were changed. -/
structure Served (m : DbaMap) (s₀ s : NewMap) (placed : List ℕ) (l : List Slot) : Prop where
  own : ∀ x ∈ l, x.onu ∈ placed ∧ x.tc < 2
  got : ∀ o ∈ placed, ∀ tc < 2, s₀.bw (tcontIdx m o tc) ≤ given l o tc
  others : ∀ i, (∀ o ∈ placed, i ≠ tcontIdx m o 1) → s.bw i = s₀.bw i

/-- What a turn gives its ONU. -/
structure Serves (m : DbaMap) (s t : NewMap) (onu a b : ℕ) (new : List Slot) : Prop where
  own : ∀ x ∈ new, x.onu = onu ∧ x.tc < 2
  first : a ≤ given new onu 0
  second : b ≤ given new onu 1
  others : ∀ i, i ≠ tcontIdx m onu 1 → t.bw i = s.bw i

theorem Served.append (h : Served m s₀ s placed l) (hnew : Serves m s t onu a b new)
    (ha : s₀.bw onu = a) (hb : s₀.bw (tcontIdx m onu 1) = b) :
    Served m s₀ t (placed ++ [onu]) (l ++ new) := by
  constructor
  case own =>
    intro x hx
    rcases List.mem_append.mp hx with hx | hx
    · exact ⟨List.mem_append_left _ (h.own x hx).1, (h.own x hx).2⟩
    · exact ⟨by simp [(hnew.own x hx).1], (hnew.own x hx).2⟩
  case got =>
    intro o ho tc htc
    rw [given_append]
    rcases List.mem_append.mp ho with ho | ho
    · have := h.got o ho tc htc
      omega
    · obtain rfl := List.mem_singleton.mp ho
      have := hnew.first
      have := hnew.second
      obtain rfl | rfl : tc = 0 ∨ tc = 1 := by omega
      · rw [tcontIdx_zero, ha]
        omega
      · rw [hb]
        omega
  case others =>
    intro i hi
    rw [hnew.others i (hi onu (by simp)), h.others i fun o ho => hi o (by simp [ho])]

/-! ## A turn -/

/-- The grants of an ONU with less than 27 units are filled up by its
    T-CONT 1. -/
theorem atLeast_spec (hvalid : (cfg (tcontIdx m onu 1)).valid = true)
    (hne : onu ≠ tcontIdx m onu 1) (ha : s.bw onu = a) (hb : s.bw (tcontIdx m onu 1) = b) :
    ∃ b', b ≤ b' ∧ a + b' = max 27 (a + b) ∧
      (s.atLeast m cfg onu (a + b)).bw onu = a ∧
      (s.atLeast m cfg onu (a + b)).bw (tcontIdx m onu 1) = b' ∧
      (∀ i, i ≠ tcontIdx m onu 1 → (s.atLeast m cfg onu (a + b)).bw i = s.bw i) ∧
      (s.atLeast m cfg onu (a + b)).pos = s.pos ∧ (s.atLeast m cfg onu (a + b)).wrap = s.wrap ∧
      Wrote m cfg s (s.atLeast m cfg onu (a + b)) [] := by
  unfold NewMap.atLeast
  rcases Nat.lt_or_ge 26 (a + b) with hmore | hless
  · simp only [if_neg hmore.not_ge, ha, hb, implies_true, true_and]
    exact ⟨b, le_rfl, by omega, rfl, .nil rfl rfl⟩
  · simp only [hvalid, if_pos hless, if_true, true_and]
    refine ⟨27 - a, by omega, by omega, ?_, ?_, fun i hi => Function.update_of_ne hi _ _,
      .nil rfl rfl⟩
    · rw [Function.update_of_ne hne, ha]
    · rw [Function.update_self, hb]
      omega

theorem Wrote.of_nil (h : Wrote m cfg s t []) (h' : Wrote m cfg t u l) : Wrote m cfg s u l :=
  h.trans h'

section
variable (hvalid : (cfg (tcontIdx m onu 1)).valid = true) (hne : onu ≠ tcontIdx m onu 1)
  (ha : s.bw onu = a) (hb : s.bw (tcontIdx m onu 1) = b) (ha1 : 1 ≤ a) (hb1 : 1 ≤ b)
  (htotal : total onu = a + b)
include hvalid hne ha hb ha1 hb1 htotal

/-- A turn that is not the last one: the row goes on, or the map crosses. -/
theorem stage_first (hk : k + 1 ≠ actOnus) (h : InFirst m cfg s₀ s first used)
    (hshort : a + b ≤ 26 → used ≤ 219) (hroom : used + a + b + 100 ≤ 2 * frameLen) :
    ∃ new first' second', first' ++ second' = first ++ new ∧
      Stage m cfg s₀ (newTurn m cfg actOnus order total s onu k) first' second'
        (used + max 27 (a + b) + 46) ∧
      Serves m s (newTurn m cfg actOnus order total s onu k) onu a b new := by
  have hlen : frameLen = 0x4BC2 := rfl
  have hmax : stopMax = 0x4BC1 := rfl
  have hpos := h.pos
  have hfit := h.room
  obtain ⟨b', hb', hsum, hbw0, hbw1, hbw, hpos', hwrap', hnil⟩ := atLeast_spec hvalid hne ha hb
  unfold newTurn
  simp only [htotal, hk, decide_false, Bool.false_eq_true, if_false]
  generalize s.atLeast m cfg onu (a + b) = u at *
  rw [if_pos (hwrap'.trans h.wrap), Nat.mod_eq_of_lt (by omega)]
  have hb1' : 1 ≤ b' := by omega
  rcases Nat.lt_or_ge 0x4BEF (u.pos + (a + b) + 45) with hcross | hfits
  · rw [if_pos hcross]
    obtain ⟨f, g, hi, hsplit, hhi, htpos, htwrap, htbw, h0, h1⟩ :=
      @cross_on m cfg u onu a b' (frameLen - u.pos) (by omega) (by omega) hbw0 hbw1 hb1' (by omega)
        ha1 (by omega)
    refine ⟨f ++ g, first ++ f, g, List.append_assoc _ _ _, .inr ?_, ?_⟩
    · constructor
      case wrote =>
        rw [List.append_assoc]
        exact h.wrote.trans (hnil.of_nil hsplit.wrote)
      case wrap => exact htwrap
      case frame => exact h.row.close (hpos' ▸ hsplit.first) (hsplit.first.within le_rfl)
      case row =>
        rw [htpos]
        exact Row.nil.append hsplit.second (by omega)
      case pos => omega
    · constructor
      case own =>
        intro x hx
        exact (List.mem_append.mp hx).elim (hsplit.first.own x) (hsplit.second.own x)
      case first => exact h0
      case second => exact hb'.trans h1
      case others =>
        intro i hi
        rw [htbw, hbw i hi]
  rw [if_neg hfits.not_gt]
  have hgot (mark : ℕ) := @given_pair onu a b' u.pos mark ha1 hb1'
  by_cases hlast : u.pos + (a + b) = frameLen ∨ 0x4BA6 < u.pos + (a + b) + 45
  · -- this frame ends with the ONU
    obtain ⟨hwrote, htpos, htwrap, -, htbw⟩ :=
      @pair_wrap m cfg u onu a b' false hvalid hbw0 hbw1 ha1 hb1' (by omega) (hwrap'.trans h.wrap)
    have hpiece : Piece onu u.pos (u.pos + a + b') endWrap (pairSlots onu u.pos a b' endWrap) :=
      piece_pair ha1 hb1'
    rw [decide_eq_true hlast]
    refine ⟨pairSlots onu u.pos a b' endWrap, first ++ pairSlots onu u.pos a b' endWrap, [],
      List.append_nil _, .inr ?_, ?_⟩
    · constructor
      case wrote =>
        rw [List.append_nil]
        exact h.wrote.trans (hnil.of_nil hwrote)
      case wrap => exact htwrap
      case frame => exact (hpos' ▸ h.row).close hpiece (hpiece.within (by omega))
      case row => exact .nil
      case pos => omega
    · exact ⟨hpiece.own, (hgot _).1.ge, hb'.trans (hgot _).2.ge, fun i hi => by rw [htbw, hbw i hi]⟩
  · obtain ⟨hwrote, htpos, htwrap, htbw⟩ :=
      @pair_on m cfg u onu a b' false false hvalid hbw0 hbw1 ha1 hb1' (by omega)
        (.inl ⟨hwrap'.trans h.wrap, rfl⟩)
    have hpiece : Piece onu u.pos (u.pos + a + b') 0 (pairSlots onu u.pos a b' 0) :=
      piece_pair ha1 hb1'
    rw [decide_eq_false hlast]
    refine ⟨pairSlots onu u.pos a b' 0, first ++ pairSlots onu u.pos a b' 0, [],
      List.append_nil _, .inl ⟨?_, rfl⟩, ?_⟩
    · constructor
      case wrote => exact h.wrote.trans (hnil.of_nil hwrote)
      case wrap => exact htwrap.trans (hwrap'.trans h.wrap)
      case row =>
        rw [htpos]
        exact (hpos' ▸ h.row).append hpiece (by omega)
      case pos => omega
      case room => omega
    · exact ⟨hpiece.own, (hgot _).1.ge, hb'.trans (hgot _).2.ge, fun i hi => by rw [htbw, hbw i hi]⟩

/-- A turn behind the crossing that is not the last one. -/
theorem stage_second (hk : k + 1 ≠ actOnus) (h : InSecond m cfg s₀ s first second used)
    (hroom : used + a + b + 100 ≤ 2 * frameLen) :
    ∃ new first' second', first' ++ second' = first ++ second ++ new ∧
      Stage m cfg s₀ (newTurn m cfg actOnus order total s onu k) first' second'
        (used + max 27 (a + b) + 46) ∧
      Serves m s (newTurn m cfg actOnus order total s onu k) onu a b new := by
  have hlen : frameLen = 0x4BC2 := rfl
  have hpos := h.pos
  obtain ⟨b', hb', hsum, hbw0, hbw1, hbw, hpos', hwrap', hnil⟩ := atLeast_spec hvalid hne ha hb
  unfold newTurn
  simp only [htotal, hk, decide_false]
  generalize s.atLeast m cfg onu (a + b) = u at *
  have hwrap : u.wrap = 1 := hwrap'.trans h.wrap
  have hb1' : 1 ≤ b' := by omega
  -- the ONUs before took less than what a fill would need
  rw [if_neg (by rw [hwrap]; exact one_ne_zero), Nat.mod_eq_of_lt (by omega), if_neg (by omega)]
  obtain ⟨hwrote, htpos, htwrap, htbw⟩ :=
    @pair_on m cfg u onu a b' false false hvalid hbw0 hbw1 ha1 hb1' (by omega) (.inr ⟨hwrap, rfl⟩)
  have hgot := @given_pair onu a b' u.pos 0 ha1 hb1'
  have hpiece : Piece onu u.pos (u.pos + a + b') 0 (pairSlots onu u.pos a b' 0) :=
    piece_pair ha1 hb1'
  refine ⟨pairSlots onu u.pos a b' 0, first, second ++ pairSlots onu u.pos a b' 0,
    (List.append_assoc _ _ _).symm, .inr ?_, ?_⟩
  · constructor
    case wrote =>
      rw [← List.append_assoc]
      exact h.wrote.trans (hnil.of_nil hwrote)
    case wrap => exact htwrap.trans hwrap
    case frame => exact h.frame
    case row =>
      rw [htpos]
      exact (hpos' ▸ h.row).append hpiece (by omega)
    case pos => omega
  · exact ⟨hpiece.own, hgot.1.ge, hb'.trans hgot.2.ge, fun i hi => by rw [htbw, hbw i hi]⟩

end

/-! ## The last turn -/

/-- What the last turn leaves: both frames are written, and its ONU has
    its grants, but for its T-CONT 1 where the second frame is full. -/
structure Ended (m : DbaMap) (cfg : Table) (s₀ t : NewMap) (order : List ℕ) (onu a b : ℕ)
    (old first second : List Slot) : Prop where
  wrote : Wrote m cfg s₀ t (first ++ second)
  wraps : FrameSlots endWrap first
  lasts : FrameSlots endLast second
  gives : ∃ new, first ++ second = old ++ new ∧ (∀ x ∈ new, x.onu ∈ order ∧ x.tc < 2) ∧
    a ≤ given new onu 0 ∧
    (b ≤ given new onu 1 ∨ ∃ x ∈ second, x.onu = onu ∧ x.tc = 1 ∧ stopMax ≤ x.stop)

/-- Short slots for the ONUs of a list fill up the second frame. -/
theorem shorts_spec (l : List ℕ) (n : ℕ) (hl : l ≠ []) (hn : n + l.length = actOnus)
    (hvalid : ∀ o ∈ l, (cfg (tcontIdx m o 1)).valid = true)
    (hrow : Row second s.pos) (hroom : s.pos + 75 * l.length ≤ frameLen) :
    ∃ new, Wrote m cfg s ((l.zipIdx n).foldl
        (fun s p => dbaBwmapShort m cfg s p.1 (p.2 + 1 = actOnus)) s) new ∧
      FrameSlots endLast (second ++ new) ∧ ∀ x ∈ new, x.onu ∈ l ∧ x.tc < 2 := by
  induction l generalizing n s second with
  | nil => exact absurd rfl hl
  | cons o l ih =>
    have hlen : frameLen = 0x4BC2 := rfl
    have hlength : (o :: l).length = l.length + 1 := rfl
    rw [hlength] at hn hroom
    rw [List.zipIdx_cons, List.foldl_cons]
    have hv := hvalid o List.mem_cons_self
    obtain ⟨hwrote, hpos⟩ :=
      @short_spec m cfg s o (decide (n + 1 = actOnus)) hv (by omega)
    by_cases hnil : l = []
    · -- the last slot has the mark
      subst hnil
      have hlast : n + 1 = actOnus := hn
      rw [decide_eq_true hlast, if_pos rfl] at hwrote
      rw [decide_eq_true hlast]
      refine ⟨_, hwrote, hrow.close piece_short (piece_short.within (by omega)), ?_⟩
      intro x hx
      have := piece_short.own x hx
      simp [this.1, this.2]
    · have hpl : 0 < l.length := List.length_pos_iff.mpr hnil
      have hmore : ¬n + 1 = actOnus := by omega
      rw [decide_eq_false hmore] at hwrote hpos ⊢
      obtain ⟨new, hnew, hframe, hown⟩ := ih (n + 1) hnil (by omega)
        (fun p hp => hvalid p (List.mem_cons_of_mem _ hp))
        (hpos rfl ▸ hrow.append piece_short (by omega)) (by rw [hpos rfl]; omega)
      refine ⟨_, hwrote.trans hnew, by rw [← List.append_assoc]; exact hframe, ?_⟩
      intro x hx
      rcases List.mem_append.mp hx with hx | hx
      · have := piece_short.own x hx
        simp [this.1, this.2]
      · exact ⟨List.mem_cons_of_mem _ (hown x hx).1, (hown x hx).2⟩

section
variable (hvalid : (cfg (tcontIdx m onu 1)).valid = true) (hne : onu ≠ tcontIdx m onu 1)
  (ha : s.bw onu = a) (hb : s.bw (tcontIdx m onu 1) = b) (ha1 : 1 ≤ a) (hb1 : 1 ≤ b)
  (htotal : total onu = a + b) (hk : k + 1 = actOnus) (hmem : onu ∈ order)
  (hlong : 27 ≤ a + b) (hb16 : b < 2 ^ 16) (hroom : used + a + 29 ≤ 2 * frameLen)
include hvalid hne ha hb ha1 hb1 htotal hk hmem hlong hb16 hroom

/-- The last turn in the first frame: the map crosses, or the second frame
    gets short slots. -/
theorem ended_first (h : InFirst m cfg s₀ s first used) (hlen4 : order.length = actOnus)
    (hact : actOnus ≤ 4) (hvalids : ∀ o ∈ order, (cfg (tcontIdx m o 1)).valid = true) :
    ∃ first' second', Ended m cfg s₀ (newTurn m cfg actOnus order total s onu k) order onu a b
      first first' second' := by
  have hlen : frameLen = 0x4BC2 := rfl
  have hpos := h.pos
  have hfit := h.room
  obtain ⟨b', hb', hsum, hbw0, hbw1, hbw, hpos', hwrap', hnil⟩ := atLeast_spec hvalid hne ha hb
  obtain rfl : b' = b := by omega
  unfold newTurn
  simp only [htotal, hk, decide_true, if_true]
  generalize s.atLeast m cfg onu (a + b') = u at *
  rw [if_pos (hwrap'.trans h.wrap), Nat.mod_eq_of_lt (by omega)]
  rcases Nat.lt_or_ge 0x4BEF (u.pos + (a + b') + 45) with hcross | hfits
  · rw [if_pos hcross]
    obtain ⟨f, g, hsplit, hin, h0, h1⟩ :=
      @cross_last m cfg u onu a b' (frameLen - u.pos) (by omega) (by omega) hbw0 hbw1 hb1 hb16 ha1
        (by omega) (by omega)
    refine ⟨first ++ f, g, ?_, ?_, ?_, f ++ g, List.append_assoc _ _ _, ?_, h0, ?_⟩
    · rw [List.append_assoc]
      exact h.wrote.trans (hnil.of_nil hsplit.wrote)
    · exact h.row.close (hpos' ▸ hsplit.first) (hsplit.first.within le_rfl)
    · exact Row.nil.close hsplit.second hin
    · intro x hx
      have := (List.mem_append.mp hx).elim (hsplit.first.own x) (hsplit.second.own x)
      exact ⟨this.1 ▸ hmem, this.2⟩
    · refine h1.imp id ?_
      rintro ⟨x, hx, htc, hstop⟩
      exact ⟨x, hx, (hsplit.second.own x hx).1, htc, hstop⟩
  rw [if_neg hfits.not_gt]
  obtain ⟨hwrote, -, -, -, -⟩ :=
    @pair_wrap m cfg u onu a b' false hvalid hbw0 hbw1 ha1 hb1 (by omega) (hwrap'.trans h.wrap)
  have hgot := @given_pair onu a b' u.pos endWrap ha1 hb1
  have hpiece : Piece onu u.pos (u.pos + a + b') endWrap (pairSlots onu u.pos a b' endWrap) :=
    piece_pair ha1 hb1
  generalize dbaBwmapPair m cfg u onu true false = v at *
  have hodd : v.crossPos % 2 ≤ 1 := by omega
  obtain ⟨new, hshort, hframe, hown⟩ :=
    @shorts_spec m cfg { v with pos := v.crossPos % 2 } [] actOnus order 0
      (List.ne_nil_of_mem hmem) (by omega) hvalids .nil (by simp only; omega)
  refine ⟨first ++ pairSlots onu u.pos a b' endWrap, new, ?_, ?_, hframe,
    pairSlots onu u.pos a b' endWrap ++ new, List.append_assoc _ _ _, ?_, ?_, .inl ?_⟩
  · rw [List.append_assoc]
    refine h.wrote.trans (hnil.of_nil (hwrote.trans ?_))
    exact ⟨hshort.out, hshort.fec, hshort.olt⟩
  · exact (hpos' ▸ h.row).close hpiece (hpiece.within (by omega))
  · intro x hx
    rcases List.mem_append.mp hx with hx | hx
    · exact ⟨(hpiece.own x hx).1 ▸ hmem, (hpiece.own x hx).2⟩
    · exact hown x hx
  · rw [given_append, hgot.1]
    omega
  · rw [given_append, hgot.2]
    omega

/-- The last turn behind the crossing: the ONU fits, or its T-CONT 1 fills
    up the frame. -/
theorem ended_second (h : InSecond m cfg s₀ s first second used) :
    ∃ first' second', Ended m cfg s₀ (newTurn m cfg actOnus order total s onu k) order onu a b
      (first ++ second) first' second' := by
  have hlen : frameLen = 0x4BC2 := rfl
  have hmax : stopMax = 0x4BC1 := rfl
  have hpos := h.pos
  obtain ⟨b', hb', hsum, hbw0, hbw1, hbw, hpos', hwrap', hnil⟩ := atLeast_spec hvalid hne ha hb
  obtain rfl : b' = b := by omega
  unfold newTurn
  simp only [htotal, hk, decide_true]
  generalize s.atLeast m cfg onu (a + b') = u at *
  have hwrap : u.wrap = 1 := hwrap'.trans h.wrap
  rw [if_neg (by rw [hwrap]; exact one_ne_zero), Nat.mod_eq_of_lt (by omega)]
  have hrow : Row second u.pos := hpos' ▸ h.row
  split_ifs with hfull
  · have hwrote := @fill_spec m cfg u onu a hbw0 ha1 (by omega)
    have hpiece : Piece onu u.pos frameLen endLast
        [⟨onu, 0, u.pos, u.pos + a - 1, 0⟩, ⟨onu, 1, u.pos + a, stopMax, endLast⟩] := by
      have hone : Piece onu u.pos (u.pos + a) 0 [⟨onu, 0, u.pos, u.pos + a - 1, 0⟩] := by
        apply Piece.one <;> dsimp only <;> omega
      have htwo : Piece onu (u.pos + a) frameLen endLast
          [⟨onu, 1, u.pos + a, stopMax, endLast⟩] := by
        apply Piece.one <;> dsimp only <;> omega
      exact hone.append htwo (by omega) (by omega)
    refine ⟨first, _, ?_, h.frame, hrow.close hpiece (hpiece.within le_rfl), _,
      (List.append_assoc _ _ _).symm, ?_, ?_, .inr ?_⟩
    · rw [← List.append_assoc]
      exact h.wrote.trans (hnil.of_nil hwrote)
    · exact fun x hx => ⟨(hpiece.own x hx).1 ▸ hmem, (hpiece.own x hx).2⟩
    · simp only [given_cons, given_nil]
      simp
      omega
    · exact ⟨_, List.mem_append_right _ (List.mem_cons_of_mem _ List.mem_cons_self), rfl, rfl,
        le_rfl⟩
  · have hwrote := @pair_last m cfg u onu a b' false hvalid hbw0 hbw1 ha1 hb1 (by omega) hwrap
    have hgot := @given_pair onu a b' u.pos endLast ha1 hb1
    have hpiece : Piece onu u.pos (u.pos + a + b') endLast (pairSlots onu u.pos a b' endLast) :=
      piece_pair ha1 hb1
    refine ⟨first, _, ?_, h.frame, hrow.close hpiece (hpiece.within (by omega)), _,
      (List.append_assoc _ _ _).symm, ?_, hgot.1.ge, .inl hgot.2.ge⟩
    · rw [← List.append_assoc]
      exact h.wrote.trans (hnil.of_nil hwrote)
    · exact fun x hx => ⟨(hpiece.own x hx).1 ▸ hmem, (hpiece.own x hx).2⟩

end

/-! ## The run -/

/-- The two T-CONTs of an ONU are told apart from those of another one. -/
def Fresh (m : DbaMap) (placed : List ℕ) (onu : ℕ) : Prop :=
  ∀ o ∈ placed, onu ≠ tcontIdx m o 1 ∧ tcontIdx m onu 1 ≠ tcontIdx m o 1

/-- What the map knows of an ONU: its two grants and their sum. -/
structure Asks (m : DbaMap) (cfg : Table) (s₀ : NewMap) (total : ℕ → ℕ) (onu a b : ℕ) : Prop where
  valid : (cfg (tcontIdx m onu 1)).valid = true
  apart : onu ≠ tcontIdx m onu 1
  first : s₀.bw onu = a
  second : s₀.bw (tcontIdx m onu 1) = b
  one_le : 1 ≤ a ∧ 1 ≤ b
  total : total onu = a + b

/-- The grants of an ONU that was not placed are those of the table. -/
theorem Served.bw_eq (hserved : Served m s₀ s placed l) (hask : Asks m cfg s₀ total onu a b)
    (hfresh : Fresh m placed onu) : s.bw onu = a ∧ s.bw (tcontIdx m onu 1) = b := by
  rw [hserved.others onu fun o ho => (hfresh o ho).1, hserved.others _ fun o ho => (hfresh o ho).2]
  exact ⟨hask.first, hask.second⟩

section
variable (hask : Asks m cfg s₀ total onu a b) (hserved : Served m s₀ s placed (first ++ second))
  (hfresh : Fresh m placed onu) (h : Stage m cfg s₀ s first second used)
include hask hserved hfresh h

/-- One turn before the last one -/
theorem stage_step (k : ℕ) (order : List ℕ) (hk : k + 1 ≠ actOnus)
    (hshort : a + b ≤ 26 → used ≤ 219) (hroom : used + a + b + 100 ≤ 2 * frameLen) :
    ∃ first' second',
      Stage m cfg s₀ (newTurn m cfg actOnus order total s onu k) first' second'
        (used + max 27 (a + b) + 46) ∧
      Served m s₀ (newTurn m cfg actOnus order total s onu k) (placed ++ [onu])
        (first' ++ second') := by
  obtain ⟨ha, hb⟩ := hserved.bw_eq hask hfresh
  rcases h with ⟨h, rfl⟩ | h
  · obtain ⟨new, first', second', hall, hstage, hserves⟩ :=
      @stage_first m cfg s₀ s first onu a b used actOnus k order total hask.valid hask.apart ha hb
        hask.one_le.1 hask.one_le.2 hask.total hk h hshort hroom
    rw [List.append_nil] at hserved
    exact ⟨first', second', hstage, hall ▸ hserved.append hserves hask.first hask.second⟩
  · obtain ⟨new, first', second', hall, hstage, hserves⟩ :=
      @stage_second m cfg s₀ s first second onu a b used actOnus k order total hask.valid hask.apart
        ha hb hask.one_le.1 hask.one_le.2 hask.total hk h hroom
    exact ⟨first', second', hstage, hall ▸ hserved.append hserves hask.first hask.second⟩

/-- The last turn -/
theorem stage_end (k : ℕ) (hk : k + 1 = actOnus) (hlong : 27 ≤ a + b) (hb16 : b < 2 ^ 16)
    (hroom : used + a + 29 ≤ 2 * frameLen) (hlen4 : order.length = actOnus) (hact : actOnus ≤ 4)
    (hvalids : ∀ o ∈ order, (cfg (tcontIdx m o 1)).valid = true) (hmem : onu ∈ order) :
    ∃ first' second', Ended m cfg s₀ (newTurn m cfg actOnus order total s onu k) order onu a b
      (first ++ second) first' second' := by
  obtain ⟨ha, hb⟩ := hserved.bw_eq hask hfresh
  rcases h with ⟨h, rfl⟩ | h
  · rw [List.append_nil]
    exact ended_first hask.valid hask.apart ha hb hask.one_le.1 hask.one_le.2 hask.total hk hmem
      hlong hb16 hroom h hlen4 hact hvalids
  · exact ended_second hask.valid hask.apart ha hb hask.one_le.1 hask.one_le.2 hask.total hk hmem
      hlong hb16 hroom h

end

/-- The first three turns: the ONUs before the last one have their grants,
    and what they took is known. -/
theorem stage_three {o₀ o₁ o₂ a₀ b₀ a₁ b₁ a₂ b₂ w₀ w₁ w₂ : ℕ}
    (hask₀ : Asks m cfg s₀ total o₀ a₀ b₀) (hask₁ : Asks m cfg s₀ total o₁ a₁ b₁)
    (hask₂ : Asks m cfg s₀ total o₂ a₂ b₂) (hfresh₁ : Fresh m [o₀] o₁)
    (hfresh₂ : Fresh m [o₀, o₁] o₂) (h : Stage m cfg s₀ s₀ [] [] 0)
    (hw₀ : max 27 (a₀ + b₀) = w₀) (hw₁ : max 27 (a₁ + b₁) = w₁) (hw₂ : max 27 (a₂ + b₂) = w₂)
    (h01 : w₀ ≤ w₁) (h12 : w₁ ≤ w₂) (hroom : w₀ + w₁ + 2 * w₂ ≤ 38696) :
    ∃ first second,
      Stage m cfg s₀ (newTurn m cfg 4 order total
        (newTurn m cfg 4 order total (newTurn m cfg 4 order total s₀ o₀ 0) o₁ 1) o₂ 2) first second
        (w₀ + w₁ + w₂ + 138) ∧
      Served m s₀ (newTurn m cfg 4 order total
        (newTurn m cfg 4 order total (newTurn m cfg 4 order total s₀ o₀ 0) o₁ 1) o₂ 2)
        [o₀, o₁, o₂] (first ++ second) := by
  have hlen : frameLen = 0x4BC2 := rfl
  have hserved : Served m s₀ s₀ [] ([] ++ []) := by
    constructor <;> simp
  have hv₀ : a₀ + b₀ ≤ w₀ := hw₀ ▸ le_max_right _ _
  have hv₁ : a₁ + b₁ ≤ w₁ := hw₁ ▸ le_max_right _ _
  have hv₂ : a₂ + b₂ ≤ w₂ := hw₂ ▸ le_max_right _ _
  have hs₁ (h : a₁ + b₁ ≤ 26) : w₁ = 27 := by rw [← hw₁, max_eq_left (by omega)]
  have hs₂ (h : a₂ + b₂ ≤ 26) : w₂ = 27 := by rw [← hw₂, max_eq_left (by omega)]
  obtain ⟨f₁, g₁, hst₁, hsv₁⟩ := @stage_step m cfg s₀ s₀ [] [] o₀ a₀ b₀ 0 4 [] total hask₀ hserved
    (by simp [Fresh]) h 0 order (by decide) (by omega) (by omega)
  rw [hw₀] at hst₁
  obtain ⟨f₂, g₂, hst₂, hsv₂⟩ := stage_step hask₁ hsv₁ hfresh₁ hst₁ 1 order
    (show 1 + 1 ≠ 4 by decide) (fun h => by have := hs₁ h; omega) (by omega)
  rw [hw₁] at hst₂
  obtain ⟨f₃, g₃, hst₃, hsv₃⟩ := stage_step hask₂ hsv₂ hfresh₂ hst₂ 2 order
    (show 2 + 1 ≠ 4 by decide) (fun h => by have := hs₂ h; omega) (by omega)
  rw [hw₂, show 0 + w₀ + 46 + w₁ + 46 + w₂ + 46 = w₀ + w₁ + w₂ + 138 by omega] at hst₃
  exact ⟨f₃, g₃, hst₃, hsv₃⟩

/-- The grants of an ONU's two T-CONTs -/
def pairBw (m : DbaMap) (alloc : ℕ → Alloc) (onu : ℕ) : ℤ :=
  (alloc (tcontIdx m onu 0)).curBw + (alloc (tcontIdx m onu 1)).curBw

/-- What the map of two frames is made for: four ONUs with T-CONTs 0 and 1,
    every grant at least one unit, the budget of `dba_budget_calc`, where an
    ONU counts for 27 units at least, and 75 units for T-CONT 1 of the ONU
    that comes last. -/
structure Pairs (m : DbaMap) (cfg : Table) (alloc : ℕ → Alloc) : Prop where
  four : (owners m cfg).length = 4
  valid : ∀ onu ∈ owners m cfg, ∀ t < m.nTc, (cfg (tcontIdx m onu t)).valid = decide (t < 2)
  granted : ∀ onu ∈ owners m cfg, ∀ t < 2, 1 ≤ (alloc (tcontIdx m onu t)).curBw
  budget : ((owners m cfg).map fun onu => max 27 (pairBw m alloc onu)).sum ≤ 0x97E0 - 46 * 4
  largest : ∀ onu ∈ owners m cfg, (∀ o ∈ owners m cfg, pairBw m alloc o ≤ pairBw m alloc onu) →
    75 ≤ (alloc (tcontIdx m onu 1)).curBw

variable {mode : ℕ} {alloc : ℕ → Alloc}

theorem newOrder_eq (m : DbaMap) (cfg : Table) (alloc : ℕ → Alloc) :
    newOrder m cfg alloc =
      (owners m cfg).foldl (listIn fun o => (onuGrants m cfg alloc o : ℤ)) [] := by
  unfold newOrder owners
  rw [List.foldl_filter]

theorem newOrder_perm (m : DbaMap) (cfg : Table) (alloc : ℕ → Alloc) :
    (newOrder m cfg alloc).Perm (owners m cfg) := by
  rw [newOrder_eq]
  exact foldl_listIn_perm _ _

/-- The list has the ONUs by growing grant. -/
theorem newOrder_rises (h : ∀ onu ∈ owners m cfg, onuGrants m cfg alloc onu < 2 ^ 16) :
    (newOrder m cfg alloc).Pairwise fun o o' =>
      onuGrants m cfg alloc o ≤ onuGrants m cfg alloc o' := by
  rw [newOrder_eq]
  have hrises :=
    (foldl_listIn_rises_iff (fun o => (onuGrants m cfg alloc o : ℤ)) (owners m cfg)).mpr
    (List.pairwise_of_forall_mem_list fun i _ j hj => ?_)
  · exact hrises.imp fun h => by exact_mod_cast h
  · rw [u16_natCast_of_lt (h j hj)]
    exact ⟨id, fun hgt => hgt.le⟩

/-- The sum of an ONU is that of its two grants. -/
theorem onuGrants_pair (h : Pairs (dbaMap mode) cfg alloc) (honu : onu ∈ owners (dbaMap mode) cfg)
    (hlt : pairBw (dbaMap mode) alloc onu < 2 ^ 16) :
    (onuGrants (dbaMap mode) cfg alloc onu : ℤ) = pairBw (dbaMap mode) alloc onu := by
  have hfilter : (List.range (dbaMap mode).nTc).filter
      (fun t => (cfg (tcontIdx (dbaMap mode) onu t)).valid) = [0, 1] := by
    rw [List.filter_congr fun t ht => h.valid onu honu t (List.mem_range.mp ht)]
    rcases dbaMap_cases mode with hm | hm | hm | hm <;> rw [hm] <;> rfl
  have h0 := h.granted onu honu 0 (by omega)
  have h1 := h.granted onu honu 1 (by omega)
  unfold onuGrants pairBw at *
  rw [hfilter]
  simp only [List.map_cons, List.map_nil, List.sum_cons, List.sum_nil]
  unfold u32
  omega

/-- T-CONT 1 has another index than any T-CONT 0, and each ONU its own. -/
theorem tcontIdx_one {o o' : ℕ} (ho : o ∈ owners (dbaMap mode) cfg)
    (ho' : o' ∈ owners (dbaMap mode) cfg) :
    o' ≠ tcontIdx (dbaMap mode) o 1 ∧
      (o' ≠ o → tcontIdx (dbaMap mode) o' 1 ≠ tcontIdx (dbaMap mode) o 1) := by
  have hlt := List.mem_range.mp (List.mem_filter.mp ho).1
  have hlt' := List.mem_range.mp (List.mem_filter.mp ho').1
  rw [tcontIdx_eq hlt, tcontIdx_eq hlt']
  omega

theorem fresh_of (honu : onu ∈ owners (dbaMap mode) cfg)
    (h : ∀ o ∈ placed, o ∈ owners (dbaMap mode) cfg ∧ onu ≠ o) : Fresh (dbaMap mode) placed onu :=
  fun o ho => ⟨(tcontIdx_one (h o ho).1 honu).1, (tcontIdx_one (h o ho).1 honu).2 (h o ho).2⟩

/-- The four ONUs of the list, by growing grant -/
theorem order_four (h : Pairs (dbaMap mode) cfg alloc) :
    ∃ o₀ o₁ o₂ o₃, newOrder (dbaMap mode) cfg alloc = [o₀, o₁, o₂, o₃] := by
  have hlen : (newOrder (dbaMap mode) cfg alloc).length = 4 :=
    (length_newOrder _ _ _).trans h.four
  generalize newOrder (dbaMap mode) cfg alloc = l at hlen
  rcases l with _ | ⟨o₀, _ | ⟨o₁, _ | ⟨o₂, _ | ⟨o₃, _ | ⟨_, _⟩⟩⟩⟩⟩
  case cons.cons.cons.cons.nil => exact ⟨o₀, o₁, o₂, o₃, rfl⟩
  all_goals simp at hlen

/-- T-CONT 1 of each ONU is valid. -/
theorem Pairs.valid_one (h : Pairs (dbaMap mode) cfg alloc)
    (honu : onu ∈ owners (dbaMap mode) cfg) :
    (cfg (tcontIdx (dbaMap mode) onu 1)).valid = true := by
  have htc : 1 < (dbaMap mode).nTc := by
    rcases dbaMap_cases mode with hm | hm | hm | hm <;> rw [hm] <;> decide
  rw [h.valid onu honu 1 htc]
  rfl

/-- Each grant is a number of units, and an ONU's sum is what the list is
    ordered by. -/
theorem asks_of (h : Pairs (dbaMap mode) cfg alloc) (honu : onu ∈ owners (dbaMap mode) cfg)
    (hlt : pairBw (dbaMap mode) alloc onu < 2 ^ 16) (hbw : ∀ i, s₀.bw i = (alloc i).curBw) :
    ∃ a b : ℕ, Asks (dbaMap mode) cfg s₀ (onuGrants (dbaMap mode) cfg alloc) onu a b ∧
      pairBw (dbaMap mode) alloc onu = ((a + b : ℕ) : ℤ) := by
  have h0 := h.granted onu honu 0 (by omega)
  have h1 := h.granted onu honu 1 (by omega)
  have hsum := onuGrants_pair h honu hlt
  unfold pairBw at hsum ⊢
  rw [tcontIdx_zero] at h0 hsum ⊢
  refine ⟨(alloc onu).curBw.toNat, (alloc (tcontIdx (dbaMap mode) onu 1)).curBw.toNat, ?_, by omega⟩
  constructor
  case valid => exact h.valid_one honu
  case apart => exact (tcontIdx_one honu honu).1
  case first =>
    rw [hbw]
    omega
  case second =>
    rw [hbw]
    omega
  case one_le => omega
  case total => omega

/-- Every map of two frames: the first frame ends with the only `WRAP` mark,
    the second one with the only `LAST` mark; in each the slots go up, do not
    meet, and those of different ONUs keep 46 units between them. Every
    T-CONT has its grant, except that T-CONT 1 of an ONU with the largest sum
    may have the second frame to its end instead. -/
theorem two_frames (mode crossPos : ℕ) (cfg : Table) (alloc : ℕ → Alloc) (ctrl : BwmapCtrl)
    (h : Pairs (dbaMap mode) cfg alloc) :
    ∃ first second : List Slot,
      (dbaNewBwmapSwitch mode 4 crossPos cfg alloc ctrl).out =
        (first ++ second).map (Slot.entry (dbaMap mode) cfg ctrl) ∧
      FrameSlots endWrap first ∧ FrameSlots endLast second ∧
      (∀ x ∈ first ++ second, x.onu ∈ owners (dbaMap mode) cfg ∧ x.tc < 2) ∧
      ∀ onu ∈ owners (dbaMap mode) cfg, ∀ tc < 2,
        (alloc (tcontIdx (dbaMap mode) onu tc)).curBw ≤ given (first ++ second) onu tc ∨
        tc = 1 ∧ (∀ o ∈ owners (dbaMap mode) cfg,
            pairBw (dbaMap mode) alloc o ≤ pairBw (dbaMap mode) alloc onu) ∧
          ∃ x ∈ second, x.onu = onu ∧ x.tc = 1 ∧ stopMax ≤ x.stop := by
  obtain ⟨o₀, o₁, o₂, o₃, hord⟩ := order_four h
  have hperm : [o₀, o₁, o₂, o₃].Perm (owners (dbaMap mode) cfg) := hord ▸ newOrder_perm _ _ _
  have hmem (o : ℕ) : o ∈ owners (dbaMap mode) cfg ↔ o = o₀ ∨ o = o₁ ∨ o = o₂ ∨ o = o₃ := by
    simp [← hperm.mem_iff]
  have hnodup : [o₀, o₁, o₂, o₃].Nodup := hperm.nodup_iff.mpr (nodup_owners _ _)
  have hbudget : max 27 (pairBw (dbaMap mode) alloc o₀) +
      (max 27 (pairBw (dbaMap mode) alloc o₁) + (max 27 (pairBw (dbaMap mode) alloc o₂) +
        max 27 (pairBw (dbaMap mode) alloc o₃))) ≤ 38696 := by
    have := h.budget
    rw [← (hperm.map _).sum_eq] at this
    simpa using this
  have hm₀ := (hmem o₀).mpr (.inl rfl)
  have hm₁ := (hmem o₁).mpr (.inr (.inl rfl))
  have hm₂ := (hmem o₂).mpr (.inr (.inr (.inl rfl)))
  have hm₃ := (hmem o₃).mpr (.inr (.inr (.inr rfl)))
  have hsmall (o : ℕ) (ho : o ∈ owners (dbaMap mode) cfg) :
      pairBw (dbaMap mode) alloc o < 2 ^ 16 := by
    obtain rfl | rfl | rfl | rfl := (hmem o).mp ho <;> omega
  have hrises := @newOrder_rises (dbaMap mode) cfg alloc fun o ho => by
    have := onuGrants_pair h ho (hsmall o ho)
    have := hsmall o ho
    omega
  rw [hord] at hrises
  unfold dbaNewBwmapSwitch
  simp only [hord, List.zipIdx_cons, List.zipIdx_nil, List.foldl_cons, List.foldl_nil, Nat.zero_add,
    Nat.reduceAdd]
  generalize hs₀ : NewMap.mk (fun i => (alloc i).curBw) ctrl 0 0
    (if crossPos % 2 = 1 then 1 else 0) 0 crossPos [] = s₀
  have hbw (i : ℕ) : s₀.bw i = (alloc i).curBw := by rw [← hs₀]
  have hstart : Stage (dbaMap mode) cfg s₀ s₀ [] [] 0 := by
    have hodd : s₀.pos ≤ 1 := by
      rw [← hs₀]
      dsimp only
      split_ifs <;> omega
    refine .inl ⟨⟨.nil rfl rfl, by rw [← hs₀], .nil, hodd, ?_⟩, rfl⟩
    unfold frameLen
    omega
  obtain ⟨a₀, b₀, hask₀, hv₀⟩ := asks_of h hm₀ (hsmall o₀ hm₀) hbw
  obtain ⟨a₁, b₁, hask₁, hv₁⟩ := asks_of h hm₁ (hsmall o₁ hm₁) hbw
  obtain ⟨a₂, b₂, hask₂, hv₂⟩ := asks_of h hm₂ (hsmall o₂ hm₂) hbw
  obtain ⟨a₃, b₃, hask₃, hv₃⟩ := asks_of h hm₃ (hsmall o₃ hm₃) hbw
  simp only [List.pairwise_cons, List.mem_cons, List.not_mem_nil, or_false, forall_eq_or_imp,
    forall_eq, hask₀.total, hask₁.total, hask₂.total, hask₃.total] at hrises
  obtain ⟨⟨h01, -, -⟩, ⟨h12, -⟩, h23, -⟩ := hrises
  simp only [List.nodup_cons, List.mem_cons, List.not_mem_nil, or_false, not_or] at hnodup
  have hmost : ∀ o ∈ owners (dbaMap mode) cfg,
      pairBw (dbaMap mode) alloc o ≤ pairBw (dbaMap mode) alloc o₃ := by
    intro o ho
    rw [hv₃]
    obtain rfl | rfl | rfl | rfl := (hmem o).mp ho <;> omega
  have hlarge : 75 ≤ b₃ := by
    have hb₃ := h.largest o₃ hm₃ hmost
    rw [← hbw, hask₃.second] at hb₃
    omega
  have hcast (n : ℕ) : max 27 (n : ℤ) = (max 27 n : ℕ) := by omega
  rw [hv₀, hv₁, hv₂, hv₃, hcast, hcast, hcast, hcast] at hbudget
  have hall : max 27 (a₀ + b₀) + (max 27 (a₁ + b₁) + (max 27 (a₂ + b₂) + max 27 (a₃ + b₃))) ≤
      38696 := by exact_mod_cast hbudget
  have hw₃ : a₃ + b₃ ≤ max 27 (a₃ + b₃) := le_max_right _ _
  have hw₂₃ : max 27 (a₂ + b₂) ≤ max 27 (a₃ + b₃) := max_le_max_left _ h23
  have hw₁₂ : max 27 (a₁ + b₁) ≤ max 27 (a₂ + b₂) := max_le_max_left _ h12
  have hw₀₁ : max 27 (a₀ + b₀) ≤ max 27 (a₁ + b₁) := max_le_max_left _ h01
  generalize hmax₀ : max 27 (a₀ + b₀) = w₀, hmax₁ : max 27 (a₁ + b₁) = w₁,
    hmax₂ : max 27 (a₂ + b₂) = w₂, hmax₃ : max 27 (a₃ + b₃) = w₃ at hall hw₃ hw₂₃ hw₁₂ hw₀₁
  -- the first three turns, then the last one
  obtain ⟨f, g, hstage, hserved⟩ := @stage_three (dbaMap mode) cfg s₀ [o₀, o₁, o₂, o₃]
    (onuGrants (dbaMap mode) cfg alloc) o₀ o₁ o₂ a₀ b₀ a₁ b₁ a₂ b₂ w₀ w₁ w₂ hask₀ hask₁
    hask₂
    (fresh_of hm₁ (by simp [hm₀, Ne.symm hnodup.1.1]))
    (fresh_of hm₂ (by simp [hm₀, hm₁, Ne.symm hnodup.1.2.1, Ne.symm hnodup.2.1.1])) hstart hmax₀
    hmax₁ hmax₂ hw₀₁ hw₁₂ (by omega)
  obtain ⟨first, second, hended⟩ := @stage_end (dbaMap mode) cfg s₀ _ f g o₃ a₃ b₃ _ 4 _
    [o₀, o₁, o₂, o₃] _ hask₃ hserved
    (fresh_of hm₃ (by
      simp [hm₀, hm₁, hm₂, Ne.symm hnodup.1.2.2, Ne.symm hnodup.2.1.2, Ne.symm hnodup.2.2.1]))
    hstage 3 rfl (by omega) (by omega) (by unfold frameLen; omega) rfl le_rfl
    (fun o ho => h.valid_one (hperm.mem_iff.mp ho)) (by simp)
  obtain ⟨new, hnew, hown, h0, h1⟩ := hended.gives
  refine ⟨first, second, ?_, hended.wraps, hended.lasts, ?_, ?_⟩
  · rw [hended.wrote.out, ← hs₀, List.nil_append]
  · intro x hx
    rw [hnew] at hx
    rcases List.mem_append.mp hx with hx | hx
    · have hx := hserved.own x hx
      exact ⟨hperm.mem_iff.mp (List.mem_append_left [o₃] hx.1), hx.2⟩
    · exact ⟨hperm.mem_iff.mp (hown x hx).1, (hown x hx).2⟩
  · intro o ho tc htc
    rw [← hbw, hnew, given_append]
    rcases List.mem_append.mp (show o ∈ [o₀, o₁, o₂] ++ [o₃] from hperm.mem_iff.mpr ho) with ho | ho
    · have := hserved.got o ho tc htc
      exact .inl (by omega)
    obtain rfl := List.mem_singleton.mp ho
    obtain rfl | rfl : tc = 0 ∨ tc = 1 := by omega
    · rw [tcontIdx_zero, hask₃.first]
      exact .inl (by omega)
    · rw [hask₃.second]
      rcases h1 with h1 | h1
      · exact .inl (by omega)
      · exact .inr ⟨rfl, hmost, h1⟩

/-- ONUs 0 to 3 with T-CONTs 0 and 1, in map mode 0 -/
def fourPairs : Table := fun i =>
  if i % 32 < 4 ∧ i < 64 then ⟨1, i, 4, 0, 0, 19340⟩ else noTcont

def fourPairsBw : ℕ → Alloc := fun i =>
  { noAlloc with curBw := if i < 32 then 90 else 9000 + i }

/-- T-CONT 1 of the third ONU is split over the frame end, and the map
    ends with that of the last one. -/
theorem two_frames_four :
    let out :=
      (dbaNewBwmapSwitch 0 4 1 fourPairs fourPairsBw ⟨false, false, false, 0, false, 0⟩).out
    out.map (fun e => (e.start, e.stop, e.ctrl.endMark)) =
        [(1, 90, 0), (91, 9122, 0), (9169, 9258, 0), (9259, 18291, 0), (18338, 18427, 0),
          (18428, 19393, 1), (0, 8067, 0), (8114, 8203, 0), (8204, 17238, 3)] ∧
      ∃ first second : List Slot,
        out = (first ++ second).map
          (Slot.entry (dbaMap 0) fourPairs ⟨false, false, false, 0, false, 0⟩) ∧
        FrameSlots endWrap first ∧ FrameSlots endLast second := by
  obtain ⟨first, second, hout, hfirst, hsecond, -, -⟩ :=
    two_frames 0 1 fourPairs fourPairsBw ⟨false, false, false, 0, false, 0⟩
      { four := by decide +kernel
        valid := by decide +kernel
        granted := by decide +kernel
        budget := by decide +kernel
        largest := by decide +kernel }
  exact ⟨by decide +kernel, first, second, hout, hfirst, hsecond⟩

end ClankerNPU.Dba
