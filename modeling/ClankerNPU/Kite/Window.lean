import ClankerNPU.Kite.Whole
import Mathlib.Data.List.Pairwise

/-! # The held list and the window

    An entry in good order holds its frames sorted by their distance from
    the last number, each two or more ahead of it and less than half the
    number space. Releases then take what the distances say: everything
    up to a number, and a run without a gap. A frame past the window
    slides it once, over nothing that is not in its way, and is then in
    order or inside the window. -/

namespace ClankerNPU.Kite

/-! ## Distances -/

/-- How far `x` is ahead of `last`, modulo 4096. -/
def ahead (last x : ℕ) : ℕ := (((x : ℤ) - last) % 4096).toNat

section ahead

variable {last x y : ℕ}

theorem ahead_lt (last x : ℕ) : ahead last x < 4096 := by
  unfold ahead
  omega

theorem ahead_eq_iff (hx : x < 4096) (hy : y < 4096) : ahead last x = ahead last y ↔ x = y := by
  unfold ahead
  omega

theorem bit11_iff_ahead : bit11 ((x : ℤ) - last) ↔ 2048 ≤ ahead last x := by
  unfold bit11 ahead
  omega

/-- In the half of the number space ahead of `last`, `bit11` compares
    distances. -/
theorem bit11_iff_lt (hx : ahead last x < 2048) (hy : ahead last y < 2048) :
    bit11 ((x : ℤ) - y) ↔ ahead last x < ahead last y := by
  unfold bit11
  unfold ahead at *
  omega

theorem notPast_iff (hx : ahead last x < 2048) (hy : ahead last y < 2048) (hlt : x < 4096)
    (hlt' : y < 4096) : ¬pastSeq x y ↔ ahead last x ≤ ahead last y := by
  have heq := @ahead_eq_iff last x y hlt hlt'
  unfold pastSeq
  rw [bit11_iff_lt hx hy]
  omega

theorem ahead_succ (h : ahead last x < 4095) : ahead last ((x + 1) % 4096) = ahead last x + 1 := by
  unfold ahead at *
  omega

/-- A number is the next one if its distance is. -/
theorem next_iff (hx : x < 4096) (hy : ahead last y < 4095) :
    x = (y + 1) % 4096 ↔ ahead last x = ahead last y + 1 := by
  rw [← ahead_succ hy, ahead_eq_iff hx (Nat.mod_lt _ (by decide))]

end ahead

/-! ## Lists in order -/

/-- Rows with rising distances from `last`, all in the half of the number
    space ahead of it. -/
structure Rises (last : ℕ) (rows : List Row) : Prop where
  sns : ∀ r ∈ rows, r.sn < 4096
  near : ∀ r ∈ rows, ahead last r.sn < 2048
  sorted : rows.Pairwise fun r r' => ahead last r.sn < ahead last r'.sn

/-- What an entry holds is in order and lies between 2 and `hi` ahead of
    the last number. -/
structure View.InOrder (v : View) (hi : ℕ) : Prop where
  last : v.last < 4096
  sns : ∀ r ∈ v.rows, r.sn < 4096
  ahead : ∀ r ∈ v.rows, 2 ≤ ahead v.last r.sn ∧ ahead v.last r.sn ≤ hi
  sorted : v.rows.Pairwise fun r r' => Kite.ahead v.last r.sn < Kite.ahead v.last r'.sn

section rises

variable {last seq : ℕ} {r : Row} {rows : List Row}

theorem View.InOrder.rises {v : View} {hi : ℕ} (h : v.InOrder hi) (hhi : hi < 2048) :
    Rises v.last v.rows :=
  ⟨h.sns, fun r hr => (h.ahead r hr).2.trans_lt hhi, h.sorted⟩

theorem Rises.tail (h : Rises last (r :: rows)) : Rises last rows :=
  ⟨fun r hr => h.sns r (List.mem_cons_of_mem _ hr),
    fun r hr => h.near r (List.mem_cons_of_mem _ hr), h.sorted.tail⟩

theorem Rises.of_sublist {rows' : List Row} (h : Rises last rows) (hsub : rows'.Sublist rows) :
    Rises last rows' :=
  ⟨fun r hr => h.sns r (hsub.subset hr), fun r hr => h.near r (hsub.subset hr),
    h.sorted.sublist hsub⟩

/-- A test that is one of distance splits rising rows in two. -/
theorem Rises.span_eq {p : Row → Prop} [DecidablePred p] {c : ℕ} (h : Rises last rows)
    (hp : ∀ r ∈ rows, p r ↔ ahead last r.sn < c) :
    (rows.takeWhile fun r => p r) = (rows.filter fun r => ahead last r.sn < c) ∧
      (rows.dropWhile fun r => p r) = rows.filter fun r => c ≤ ahead last r.sn := by
  induction rows with
  | nil => exact ⟨rfl, rfl⟩
  | cons r rows ih =>
    obtain ⟨htake, hdrop⟩ := ih h.tail fun r' hr' => hp r' (List.mem_cons_of_mem _ hr')
    have hr := hp r List.mem_cons_self
    by_cases hlt : ahead last r.sn < c
    · rw [List.takeWhile_cons_of_pos (by simpa using hr.mpr hlt),
        List.dropWhile_cons_of_pos (by simpa using hr.mpr hlt), htake, hdrop,
        List.filter_cons_of_pos (by simpa using hlt), List.filter_cons_of_neg (by simpa using hlt)]
      exact ⟨rfl, rfl⟩
    · rw [List.takeWhile_cons_of_neg (by simpa using mt hr.mp hlt),
        List.dropWhile_cons_of_neg (by simpa using mt hr.mp hlt)]
      -- the rows behind it are farther still
      have hfar : ∀ r' ∈ r :: rows, c ≤ ahead last r'.sn := by
        intro r' hr'
        rcases List.mem_cons.mp hr' with rfl | hr'
        · omega
        · have := List.rel_of_pairwise_cons h.sorted hr'
          omega
      constructor
      · rw [eq_comm, List.filter_eq_nil_iff]
        intro r' hr'
        have := hfar r' hr'
        simp only [decide_eq_true_eq]
        omega
      · rw [eq_comm, List.filter_eq_self]
        intro r' hr'
        simpa using hfar r' hr'

/-- The rows up to `seq`, and those past it. -/
theorem Rises.upTo (h : Rises last rows) (hseq : seq < 4096) (hnear : ahead last seq < 2048) :
    (rows.takeWhile fun r => ¬pastSeq r.sn seq) =
        (rows.filter fun r => ahead last r.sn < ahead last seq + 1) ∧
      (rows.dropWhile fun r => ¬pastSeq r.sn seq) =
        rows.filter fun r => ahead last seq + 1 ≤ ahead last r.sn :=
  h.span_eq fun r hr => by
    have := notPast_iff (h.near r hr) hnear (h.sns r hr) hseq
    rw [this]
    omega

/-- Two parts of the rows by distance. -/
theorem Rises.filter_append {rows' : List Row} {c d : ℕ} (hcd : c ≤ d)
    (hrest : rows = (rows.filter fun r => ahead last r.sn < c) ++ rows' ++
      rows.filter fun r => d ≤ ahead last r.sn)
    (hrows' : ∀ r ∈ rows', ahead last r.sn < d) :
    (rows.filter fun r => ahead last r.sn < d) =
      (rows.filter fun r => ahead last r.sn < c) ++ rows' := by
  have hfirst : (rows.filter fun r => ahead last r.sn < c).filter
      (fun r => ahead last r.sn < d) = rows.filter fun r => ahead last r.sn < c := by
    rw [List.filter_eq_self]
    intro r hr
    have := (List.mem_filter.mp hr).2
    simp only [decide_eq_true_eq] at this ⊢
    omega
  have hlast : (rows.filter fun r => d ≤ ahead last r.sn).filter
      (fun r => ahead last r.sn < d) = [] := by
    rw [List.filter_eq_nil_iff]
    intro r hr
    have := (List.mem_filter.mp hr).2
    simp only [decide_eq_true_eq] at this ⊢
    omega
  have hmid : (rows'.filter fun r => ahead last r.sn < d) = rows' :=
    List.filter_eq_self.mpr (by simpa using hrows')
  conv_lhs => rw [hrest]
  rw [List.filter_append, List.filter_append, hfirst, hmid, hlast, List.append_nil]

/-- A run ends at `seq` or at the number of a row. -/
theorem runEnd_cases (seq : ℕ) (rows : List Row) :
    runEnd seq rows = seq ∨ ∃ r ∈ rows, runEnd seq rows = r.sn := by
  induction rows generalizing seq with
  | nil => exact .inl rfl
  | cons r rows ih =>
    unfold runEnd
    split
    · right
      rcases ih r.sn with heq | ⟨r', hr', heq⟩
      · exact ⟨r, List.mem_cons_self, heq⟩
      · exact ⟨r', List.mem_cons_of_mem _ hr', heq⟩
    · exact .inl rfl

/-- A row lies `j` ahead of `last`. -/
def HeldAt (last : ℕ) (rows : List Row) (j : ℕ) : Prop := ∃ r ∈ rows, ahead last r.sn = j

/-- What a scan from `seq` takes and leaves, with no row up to `seq`: the
    run has every number up to its end, and the next is missing. -/
structure RunTo (last seq : ℕ) (rows : List Row) (fin : ℕ) : Prop where
  start : ahead last seq ≤ fin
  stop : ahead last (runEnd seq rows) = fin
  run : ∀ j, ahead last seq < j → j ≤ fin → HeldAt last rows j
  gap : ¬HeldAt last rows (fin + 1)
  taken : ∀ r ∈ runOf seq rows, ahead last r.sn ≤ fin
  rest : runRest seq rows = rows.filter fun r => fin < ahead last r.sn

/-- The next row is the next number: the run goes on from there. -/
theorem RunTo.cons {fin : ℕ} (h : RunTo last r.sn rows fin) (hr : r.sn = (seq + 1) % 4096)
    (hd : ahead last r.sn = ahead last seq + 1) : RunTo last seq (r :: rows) fin := by
  have hstart := h.start
  constructor
  case start => omega
  case stop =>
    unfold runEnd
    rw [if_pos hr]
    exact h.stop
  case run =>
    intro j hj hle
    by_cases hj' : j = ahead last r.sn
    · exact ⟨r, List.mem_cons_self, hj'.symm⟩
    · obtain ⟨r', hr', heq⟩ := h.run j (by omega) hle
      exact ⟨r', List.mem_cons_of_mem _ hr', heq⟩
  case gap =>
    rintro ⟨r', hr', heq⟩
    rcases List.mem_cons.mp hr' with rfl | hr'
    · omega
    · exact h.gap ⟨r', hr', heq⟩
  case taken =>
    unfold runOf
    rw [if_pos hr]
    intro r' hr'
    rcases List.mem_cons.mp hr' with rfl | hr'
    · exact hstart
    · exact h.taken r' hr'
  case rest =>
    unfold runRest
    rw [if_pos hr, h.rest, List.filter_cons_of_neg (by simpa using hstart)]

/-- Every row is past the next number: the run is `seq` alone. -/
theorem runTo_alone (hseq : ∀ r ∈ rows, ahead last seq + 1 < ahead last r.sn)
    (hhead : ∀ r ∈ rows, r.sn ≠ (seq + 1) % 4096) : RunTo last seq rows (ahead last seq) := by
  have hstop : runEnd seq rows = seq ∧ runOf seq rows = [] ∧ runRest seq rows = rows := by
    cases rows with
    | nil => exact ⟨rfl, rfl, rfl⟩
    | cons r rows =>
      have hr := hhead r List.mem_cons_self
      unfold runEnd runOf runRest
      rw [if_neg hr, if_neg hr, if_neg hr]
      exact ⟨rfl, rfl, rfl⟩
  obtain ⟨hend, hof, hrest⟩ := hstop
  constructor
  case start => exact le_rfl
  case stop => rw [hend]
  case run =>
    intro j hj hle
    omega
  case gap =>
    rintro ⟨r, hr, heq⟩
    have := hseq r hr
    omega
  case taken =>
    intro r hr
    rw [hof] at hr
    cases hr
  case rest =>
    rw [hrest, eq_comm, List.filter_eq_self]
    intro r hr
    have := hseq r hr
    simp only [decide_eq_true_eq]
    omega

theorem Rises.runTo (h : Rises last rows) (hnear : ahead last seq < 2048)
    (hpast : ∀ r ∈ rows, ahead last seq < ahead last r.sn) : ∃ fin, RunTo last seq rows fin := by
  -- on the rows, with the scan's number moving along
  induction rows generalizing seq with
  | nil =>
    refine ⟨ahead last seq, runTo_alone ?_ ?_⟩
    · intro r hr
      cases hr
    · intro r hr
      cases hr
  | cons r rows ih =>
    have hmem : r ∈ r :: rows := List.mem_cons_self
    have hrise : ∀ r' ∈ rows, ahead last r.sn < ahead last r'.sn := fun r' hr' =>
      List.rel_of_pairwise_cons h.sorted hr'
    have hnext : ∀ r' ∈ r :: rows, r'.sn = (seq + 1) % 4096 ↔
        ahead last r'.sn = ahead last seq + 1 := fun r' hr' => next_iff (h.sns r' hr') (by omega)
    by_cases hr : r.sn = (seq + 1) % 4096
    · obtain ⟨fin, hrun⟩ := ih h.tail (h.near r hmem) hrise
      exact ⟨fin, hrun.cons hr ((hnext r hmem).mp hr)⟩
    · -- the rows behind `r` are farther than it, so none of them is next
      have hfar : ∀ r' ∈ r :: rows, ahead last seq + 1 < ahead last r'.sn := by
        have hd := mt (hnext r hmem).mpr hr
        have hr := hpast r hmem
        intro r' hr'
        rcases List.mem_cons.mp hr' with rfl | hr'
        · omega
        · have := hrise r' hr'
          omega
      refine ⟨ahead last seq, runTo_alone hfar ?_⟩
      intro r' hr' heq
      have := (hnext r' hr').mp heq
      have := hfar r' hr'
      omega

end rises

/-! ## Releases up to a number and on -/

/-- An advance to `seq` ends `fin` ahead: what lies up to there is sent
    on, and behind `seq` nothing up to there was missing. -/
structure Advanced (k : BaKey) (v : View) (seq : ℕ) (m : Move) (fin : ℕ) : Prop where
  last : m.view.last < 4096
  stop : ahead v.last m.view.last = fin
  start : ahead v.last seq ≤ fin
  run : ∀ j, ahead v.last seq < j → j ≤ fin → HeldAt v.last v.rows j
  gap : ¬HeldAt v.last v.rows (fin + 1)
  view : m.view = { v with
    last := m.view.last, rows := v.rows.filter fun r => fin < ahead v.last r.sn }
  outs : m.outs = v.rowOuts k (v.rows.filter fun r => ahead v.last r.sn < fin + 1)

section advance

variable {v : View} {k : BaKey} {seq : ℕ}

/-- Past a number, taking off the rows up to it changes nothing. -/
theorem heldAt_filter {last c j : ℕ} {rows : List Row} (hj : c ≤ j) :
    HeldAt last (rows.filter fun r => c ≤ ahead last r.sn) j ↔ HeldAt last rows j := by
  constructor
  · rintro ⟨r, hr, hd⟩
    exact ⟨r, List.mem_of_mem_filter hr, hd⟩
  · rintro ⟨r, hr, hd⟩
    refine ⟨r, List.mem_filter.mpr ⟨hr, ?_⟩, hd⟩
    simp only [decide_eq_true_eq]
    omega

/-- The rows up to `seq`, the run behind it, and what is left. -/
theorem Rises.split (h : Rises v.last v.rows) (hseq : seq < 4096)
    (hnear : ahead v.last seq < 2048) :
    ∃ fin, RunTo v.last seq (v.indicate k seq).view.rows fin ∧
      (v.indicate k seq).view.rows =
        (v.rows.filter fun r => ahead v.last seq + 1 ≤ ahead v.last r.sn) ∧
      runRest seq (v.indicate k seq).view.rows =
        (v.rows.filter fun r => fin + 1 ≤ ahead v.last r.sn) ∧
      (v.rows.takeWhile fun r => ¬pastSeq r.sn seq) ++ runOf seq (v.indicate k seq).view.rows =
        v.rows.filter fun r => ahead v.last r.sn < fin + 1 := by
  obtain ⟨htake, hdrop⟩ := h.upTo hseq hnear
  set rows := v.rows.filter fun r => ahead v.last seq + 1 ≤ ahead v.last r.sn
  have hview : (v.indicate k seq).view.rows = rows := hdrop
  rw [hview]
  have hpast : ∀ r ∈ rows, ahead v.last seq < ahead v.last r.sn := by
    intro r hr
    have := (List.mem_filter.mp hr).2
    simp only [decide_eq_true_eq] at this
    omega
  obtain ⟨fin, hrun⟩ := (h.of_sublist List.filter_sublist).runTo hnear hpast
  have hstart := hrun.start
  have hleft : runRest seq rows = v.rows.filter fun r => fin + 1 ≤ ahead v.last r.sn := by
    rw [hrun.rest, List.filter_filter]
    refine List.filter_congr fun r _ => ?_
    simp only [Bool.and_eq_decide, decide_eq_decide, decide_eq_true_eq]
    omega
  have hparts : v.rows = (v.rows.filter fun r => ahead v.last r.sn < ahead v.last seq + 1) ++
      runOf seq rows ++ v.rows.filter fun r => fin + 1 ≤ ahead v.last r.sn := by
    rw [← hleft, List.append_assoc, runOf_append_runRest, ← htake, ← hdrop]
    exact List.takeWhile_append_dropWhile.symm
  refine ⟨fin, hrun, rfl, hleft, ?_⟩
  rw [htake]
  exact (Rises.filter_append (by omega) hparts fun r hr =>
    Nat.lt_succ_of_le (hrun.taken r hr)).symm

theorem Rises.advance (h : Rises v.last v.rows) (hseq : seq < 4096)
    (hnear : ahead v.last seq < 2048) : ∃ fin, Advanced k v seq (v.advance k seq) fin := by
  obtain ⟨fin, hrun, hrows, hleft, hall⟩ := h.split (k := k) hseq hnear
  have hstart := hrun.start
  refine ⟨fin, ?_⟩
  constructor
  case last =>
    show runEnd seq (v.indicate k seq).view.rows < 4096
    rcases runEnd_cases seq (v.indicate k seq).view.rows with heq | ⟨r, hr, heq⟩
    · rw [heq]
      exact hseq
    · rw [hrows] at hr
      rw [heq]
      exact h.sns r (List.mem_of_mem_filter hr)
  case stop => exact hrun.stop
  case start => exact hstart
  case run =>
    intro j hj hle
    have hheld := hrun.run j hj hle
    rw [hrows] at hheld
    exact (heldAt_filter hj).mp hheld
  case gap =>
    intro hheld
    have hgap := hrun.gap
    rw [hrows] at hgap
    exact hgap ((heldAt_filter (by omega)).mpr hheld)
  case view =>
    show View.mk _ (runRest seq (v.indicate k seq).view.rows) = _
    rw [hleft]
    rfl
  case outs =>
    show v.rowOuts k (v.rows.takeWhile fun r => ¬pastSeq r.sn seq) ++
      v.rowOuts k (runOf seq (v.indicate k seq).view.rows) = _
    rw [← hall]
    unfold View.rowOuts
    rw [List.flatMap_append]

end advance

/-! ## One slide -/

section slide

variable {v : View} {k : BaKey} {sn : ℕ}

theorem ahead_sub {last x y : ℕ} (h : ahead last y ≤ ahead last x) :
    ahead y x = ahead last x - ahead last y := by
  unfold ahead at *
  omega

theorem slideTo_ahead {last win : ℕ} (h : win ≤ ahead last sn) :
    ahead last (slideTo sn win) = ahead last sn - win := by
  unfold ahead slideTo at *
  simp only
  split <;> omega

/-- Where a frame stands is a matter of its distance. -/
theorem standing_ahead {c : BaCtl} (hlast : c.last < 4096) (hsn : sn < 4096) (hwin : c.win ≤ 511)
    (hpos : 1 ≤ ahead c.last sn) (hnear : ahead c.last sn ≤ 2047) :
    c.standing sn =
      if ahead c.last sn = 1 then some .inOrder
      else if ahead c.last sn ≤ c.win then some .inside else none := by
  have hnext : (c.last + 1) % 4096 = sn ↔ ahead c.last sn = 1 := by
    unfold ahead
    omega
  have hsame : c.last ≠ sn := by
    unfold ahead at hpos
    omega
  have hbehind : ¬bit11 ((sn : ℤ) - c.last) := by
    rw [bit11_iff_ahead]
    omega
  have hinside : bit11 ((sn : ℤ) - ((c.last + c.win + 1) % 4096 : ℕ)) ↔ ahead c.last sn ≤ c.win := by
    unfold bit11
    unfold ahead at *
    omega
  unfold BaCtl.standing
  rw [if_neg hsame, if_neg hbehind]
  by_cases h1 : ahead c.last sn = 1
  · rw [if_pos (hnext.mpr h1), if_pos h1]
  · rw [if_neg (mt hnext.mp h1), if_neg h1]
    by_cases h2 : ahead c.last sn ≤ c.win
    · rw [if_pos (hinside.mpr h2), if_pos h2]
    · rw [if_neg (mt hinside.mp h2), if_neg h2]

/-- The distance the window's start moves for a frame. -/
def overshoot (v : View) (sn : ℕ) : ℕ := ahead v.last sn - v.win

/-- What a slide for a frame past the window leaves. -/
structure Slid (v w : View) (sn fin : ℕ) : Prop where
  last : w.last < 4096
  stop : ahead v.last w.last = fin
  start : overshoot v sn ≤ fin
  short : fin < ahead v.last sn
  run : ∀ j, overshoot v sn < j → j ≤ fin → HeldAt v.last v.rows j
  gap : ¬HeldAt v.last v.rows (fin + 1)
  rows : w.rows = v.rows.filter fun r => fin < ahead v.last r.sn
  win : w.win = v.win
  chain : w.chain = v.chain

theorem slid_once (h : v.InOrder v.win) (hwin : 1 ≤ v.win ∧ v.win ≤ 511)
    (hpast : v.win < ahead v.last sn) (hnear : ahead v.last sn ≤ 2047) :
    ∃ fin, Slid v (v.slideOnce k sn).view sn fin := by
  have hto : ahead v.last (slideTo sn v.win) = overshoot v sn := slideTo_ahead (by omega)
  have hover : overshoot v sn + v.win = ahead v.last sn := by
    unfold overshoot
    omega
  obtain ⟨fin, hlast, hstop, hstart, hrun, hgap, hview, -⟩ :=
    (h.rises (by omega)).advance (k := k) (slideTo_lt sn v.win) (by omega)
  rw [hto] at hstart hrun
  -- the rows are in the window, so the run stays behind the frame
  have hshort : fin < ahead v.last sn := by
    by_cases heq : fin = overshoot v sn
    · omega
    · obtain ⟨r, hr, hd⟩ := hrun fin (by omega) le_rfl
      have := (h.ahead r hr).2
      omega
  exact ⟨fin, hlast, hstop, hstart, hshort, hrun, hgap, congrArg View.rows hview,
    rfl, rfl⟩

end slide

end ClankerNPU.Kite
