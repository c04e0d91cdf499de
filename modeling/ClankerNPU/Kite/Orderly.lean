import ClankerNPU.Kite.ChainRuns
import ClankerNPU.Kite.Late
import ClankerNPU.Kite.Sheds

/-! # Entries in order

    An orderly entry's held numbers are sorted and 2 to 2047 ahead of its
    last one, through slides, BARs, timeouts and the step back to an
    unfinished A-MSDU. Only the branch for a restarted peer moves `last`
    with frames held and no look at them; what lies 2048 or more ahead of
    the new number is then behind the window. -/

open LinkedList

namespace ClankerNPU.Kite

variable {k : BaKey} {pn : KiteFrame} {band : ℕ} {v w : View} {sn : ℕ}

/-! ## Orders -/

/-- Where a run ended and the next number is missing, what is left is in
    order. -/
theorem Rises.inOrder {base fin : ℕ} {rows : List Row} (h : Rises base rows)
    (hlast : w.last < 4096) (hstop : ahead base w.last = fin) (hgap : ¬HeldAt base rows (fin + 1))
    (hrows : w.rows = rows.filter fun r => fin < ahead base r.sn) : w.InOrder 2047 := by
  have hfar : ∀ r ∈ w.rows, r ∈ rows ∧ fin + 2 ≤ ahead base r.sn ∧
      ahead w.last r.sn = ahead base r.sn - fin := by
    intro r hr
    rw [hrows] at hr
    obtain ⟨hmem, hpast⟩ := List.mem_filter.mp hr
    simp only [decide_eq_true_eq] at hpast
    have hnot : ahead base r.sn ≠ fin + 1 := fun heq => hgap ⟨r, hmem, heq⟩
    have hsub := @ahead_sub base r.sn w.last (by omega)
    exact ⟨hmem, by omega, by rw [hsub, hstop]⟩
  constructor
  case last => exact hlast
  case sns => exact fun r hr => h.sns r (hfar r hr).1
  case ahead =>
    intro r hr
    obtain ⟨hmem, hlow, heq⟩ := hfar r hr
    have := h.near r hmem
    omega
  case sorted =>
    have hsorted : w.rows.Pairwise fun r r' => ahead base r.sn < ahead base r'.sn := by
      rw [hrows]
      exact h.sorted.sublist List.filter_sublist
    refine hsorted.imp_of_mem fun {r r'} hr hr' hlt => ?_
    obtain ⟨-, hlow, heq⟩ := hfar r hr
    obtain ⟨-, -, heq'⟩ := hfar r' hr'
    omega

theorem View.InOrder.words {hi : ℕ} (h : v.InOrder hi) (hlast : w.last = v.last)
    (hrows : w.rows = v.rows) : w.InOrder hi := by
  obtain ⟨hlt, hsns, hahead, hsorted⟩ := h
  rw [← hlast] at hlt hahead hsorted
  rw [← hrows] at hsns hahead hsorted
  exact ⟨hlt, hsns, hahead, hsorted⟩

theorem View.InOrder.advance {seq : ℕ} (h : v.InOrder 2047) (hseq : seq < 4096)
    (hnear : Kite.ahead v.last seq < 2048) : (v.advance k seq).view.InOrder 2047 := by
  have hrises := h.rises (by decide)
  obtain ⟨fin, hadv⟩ := hrises.advance (k := k) hseq hnear
  exact hrises.inOrder hadv.last hadv.stop hadv.gap (congrArg View.rows hadv.view)

theorem runEnd_bound {seq : ℕ} {rows : List Row} (hseq : seq < 4096)
    (hsns : ∀ r ∈ rows, r.sn < 4096) : runEnd seq rows < 4096 := by
  rcases runEnd_cases seq rows with heq | ⟨r, hr, heq⟩
  · rw [heq]
    exact hseq
  · rw [heq]
    exact hsns r hr

/-- The window moves to a number that every row is past. -/
theorem Rises.moveLast {base seq : ℕ} (h : Rises base v.rows) (hseq : seq < 4096)
    (hnear : ahead base seq < 2048) (hpast : ∀ r ∈ v.rows, ahead base seq < ahead base r.sn) :
    (v.moveLast k seq).view.InOrder 2047 := by
  obtain ⟨fin, hrun⟩ := h.runTo hnear hpast
  exact h.inOrder (w := (v.moveLast k seq).view) (runEnd_bound hseq h.sns) hrun.stop hrun.gap
    hrun.rest

/-! ## Orderly entries -/

/-- What is held is past the number the window may step back to. -/
structure View.Pending (v : View) : Prop where
  ref : v.ref < 4096
  rises : Rises v.ref v.rows
  past : ∀ r ∈ v.rows, 1 ≤ ahead v.ref r.sn

/-- An entry waits for its first frame or is in order. While the last
    frame in order was part of an unfinished A-MSDU, `ba_state_update` goes
    back to its number. -/
structure View.Orderly (v : View) : Prop where
  win : 1 ≤ v.win ∧ v.win ≤ 511
  phase : v.state = 3 ∧ v.rows = [] ∨ v.state = 4 ∧ v.InOrder 2047
  pending : v.state = 4 → v.amsduOpen → v.flag = 0 → v.Pending

theorem View.Orderly.order (h : v.Orderly) (hstate : v.state = 4) : v.InOrder 2047 := by
  rcases h.phase with ⟨hwait, -⟩ | ⟨-, horder⟩
  · omega
  · exact horder

/-- Rows leave, and what is left is in order again. -/
theorem View.Orderly.fewer (h : v.Orderly) (hstate : w.state = v.state) (hwin : w.win = v.win)
    (hcode : w.amsdu = v.amsdu) (href : w.ref = v.ref) (hflag : w.flag = v.flag ∨ w.flag ≠ 0)
    (hrows : w.rows.Sublist v.rows) (horder : v.state = 4 → w.InOrder 2047) : w.Orderly := by
  constructor
  case win =>
    rw [hwin]
    exact h.win
  case phase =>
    rw [hstate]
    rcases h.phase with ⟨hwait, hnil⟩ | ⟨hopen, -⟩
    · rw [hnil] at hrows
      exact .inl ⟨hwait, List.sublist_nil.mp hrows⟩
    · exact .inr ⟨hopen, horder hopen⟩
  case pending =>
    intro hopen hamsdu hzero
    have hold : v.amsduOpen := by
      unfold BaCtl.amsduOpen at hamsdu ⊢
      rw [← hcode]
      exact hamsdu
    obtain ⟨hlt, hrises, hpast⟩ := h.pending (hstate ▸ hopen) hold
      (hflag.resolve_right (not_not.mpr hzero) ▸ hzero)
    rw [← href] at hlt hrises hpast
    exact ⟨hlt, hrises.of_sublist hrows, fun r hr => hpast r (hrows.subset hr)⟩

theorem Lets.sublist {m : Move} (h : Lets k v m) : m.view.rows.Sublist v.rows := by
  obtain ⟨gone, hrows, -⟩ := h.rows
  rw [← hrows]
  exact List.sublist_append_right _ _

theorem View.Orderly.lets {m : Move} (h : v.Orderly) (hm : Lets k v m)
    (hflag : m.view.flag = v.flag ∨ m.view.flag ≠ 0) (horder : v.state = 4 → m.view.InOrder 2047) :
    m.view.Orderly := by
  have hctl := hm.ctl
  exact h.fewer (by rw [hctl]) (by rw [hctl]) (by rw [hctl]) (by rw [hctl]) hflag hm.sublist horder

theorem View.Orderly.advance {seq : ℕ} (h : v.Orderly)
    (hseq : v.state = 4 → seq < 4096 ∧ ahead v.last seq < 2048) :
    (v.advance k seq).view.Orderly := by
  refine h.lets (lets_advance k seq v) (.inl rfl) fun hstate => ?_
  obtain ⟨hlt, hnear⟩ := hseq hstate
  exact (h.order hstate).advance hlt hnear

theorem View.Orderly.timeout (h : v.Orderly) (now limit fuel : ℕ) :
    (View.timeout k now limit fuel v).view.Orderly := by
  induction fuel generalizing v with
  | zero => exact h
  | succ fuel ih =>
    unfold View.timeout
    split
    · exact h
    · next r rows hrows =>
      split
      · refine ih (h.advance fun hstate => ?_)
        have horder := h.order hstate
        have hmem : r ∈ v.rows := by rw [hrows]; exact List.mem_cons_self
        have := (horder.ahead r hmem).2
        exact ⟨horder.sns r hmem, by omega⟩
      · exact h

theorem View.InOrder.flush (h : v.InOrder 2047) : (v.flush k).view.InOrder 2047 := by
  refine ⟨?_, fun r hr => absurd hr List.not_mem_nil, fun r hr => absurd hr List.not_mem_nil,
    List.Pairwise.nil⟩
  show (v.rows.getLast?.map Row.sn).getD v.last < 4096
  cases hlast : v.rows.getLast? with
  | none => exact h.last
  | some r => exact h.sns r (List.mem_of_getLast? hlast)

theorem View.Orderly.flush (h : v.Orderly) : (v.flush k).view.Orderly :=
  h.fewer rfl rfl rfl rfl (.inl rfl) (List.nil_sublist _) fun hstate => (h.order hstate).flush

/-- The step back to an unfinished A-MSDU. -/
theorem View.Orderly.stateUpdate (h : v.Orderly) (checkType : ℕ) :
    (v.stateUpdate k sn checkType).view.Orderly := by
  unfold View.stateUpdate
  split
  · exact h
  · next hset =>
    split
    · exact h.fewer rfl rfl rfl rfl (.inl rfl) (List.Sublist.refl _) fun hstate =>
        (h.order hstate).words rfl rfl
    · next hflag =>
      have hamsdu : v.amsduOpen := by
        by_contra hnot
        exact hset (settled_of_not_open hnot sn checkType)
      refine h.fewer rfl rfl rfl rfl (.inl rfl) ?_ fun hstate => ?_
      · exact (runRest_suffix v.ref v.rows).sublist
      · obtain ⟨href, hrises, hpast⟩ := h.pending hstate hamsdu (not_not.mp hflag)
        have hself : ahead v.ref v.ref = 0 := by
          unfold ahead
          omega
        -- the distances are those from the A-MSDU's number now
        refine Rises.moveLast (v := { v with chain := none }) hrises href (by omega) fun r hr => ?_
        have := hpast r hr
        omega

/-! ## Arriving frames -/

/-- Only a frame past the end of the window slides it. -/
theorem standing_none {c : BaCtl} (hlast : c.last < 4096) (hsn : sn < 4096) (hwin : c.win ≤ 511)
    (hnone : c.standing sn = none) : c.win < ahead c.last sn ∧ ahead c.last sn ≤ 2047 := by
  have hastray : Astray sn c.last := by
    by_contra hnot
    exact (standing_not_astray hlast hsn hnot).1 hnone
  obtain ⟨htwo, hnear⟩ := hastray
  refine ⟨?_, hnear⟩
  rw [standing_ahead hlast hsn hwin (by omega) hnear, if_neg (by omega)] at hnone
  by_contra hle
  rw [if_pos (by omega)] at hnone
  cases hnone

theorem standing_behind {c : BaCtl} (h : c.standing sn = some .behind) :
    bit11 ((sn : ℤ) - c.last) := by
  unfold BaCtl.standing at h
  by_contra hnot
  rw [if_neg hnot] at h
  split_ifs at h <;> cases h

theorem standing_inOrder {c : BaCtl} (h : c.standing sn = some .inOrder) :
    ahead c.last sn = 1 := by
  have hnext : (c.last + 1) % 4096 = sn := by
    unfold BaCtl.standing at h
    by_contra hnot
    rw [if_neg hnot] at h
    split_ifs at h <;> cases h
  unfold ahead
  omega

theorem standing_inside {c : BaCtl} (hlast : c.last < 4096) (hsn : sn < 4096) (hwin : c.win ≤ 511)
    (h : c.standing sn = some .inside) : 2 ≤ ahead c.last sn ∧ ahead c.last sn ≤ c.win := by
  have hastray : Astray sn c.last := by
    by_contra hnot
    exact (standing_not_astray hlast hsn hnot).2 h
  obtain ⟨htwo, hnear⟩ := hastray
  refine ⟨htwo, ?_⟩
  rw [standing_ahead hlast hsn hwin (by omega) hnear, if_neg (by omega)] at h
  by_contra hle
  rw [if_neg hle] at h
  cases h

/-- The distance from a number in front of `sn`, or behind it. -/
theorem ahead_of_two {base last : ℕ} (hsn : ahead base sn ≤ 2047) (hlast : ahead base last ≤ 2047) :
    ahead base last ≤ ahead base sn ∧ ahead last sn = ahead base sn - ahead base last ∨
      ahead base sn < ahead base last ∧ 2048 < ahead last sn := by
  unfold ahead at *
  omega

/-- A slide for the frame `sn`: it has its place afterwards, and if that
    is behind the window, what is held is past it. -/
structure Slides (w : View) (sn : ℕ) : Prop where
  order : w.InOrder 2047
  place : w.standing sn ≠ none
  near : bit11 ((sn : ℤ) - w.last) → ∀ r ∈ w.rows, ahead sn r.sn ≤ 2047

theorem View.InOrder.slideOnce (h : v.InOrder 2047) (hsn : sn < 4096)
    (hwin : 1 ≤ v.win ∧ v.win ≤ 511) (hnone : v.standing sn = none) :
    Slides (v.slideOnce k sn).view sn := by
  obtain ⟨hpast, hnear⟩ := standing_none h.last hsn hwin.2 hnone
  have hto : Kite.ahead v.last (slideTo sn v.win) = Kite.ahead v.last sn - v.win :=
    slideTo_ahead (by omega)
  have hrises := h.rises (by decide)
  obtain ⟨fin, hadv⟩ := hrises.advance (k := k) (slideTo_lt sn v.win) (by omega)
  have hstart := hadv.start
  have hfin : fin ≤ 2047 := by
    by_contra hfar
    obtain ⟨r, hr, hd⟩ := hadv.run fin (by omega) le_rfl
    have := (h.ahead r hr).2
    omega
  set w := (v.slideOnce k sn).view with hw
  have hlast : w.last < 4096 := hadv.last
  have hstop : Kite.ahead v.last w.last = fin := hadv.stop
  have hsame : w.win = v.win := rfl
  have hrows : w.rows = v.rows.filter fun r => fin < Kite.ahead v.last r.sn :=
    congrArg View.rows hadv.view
  have hwhere := @ahead_of_two _ v.last w.last hnear (by omega)
  refine ⟨hrises.inOrder hlast hstop hadv.gap hrows, ?_, ?_⟩
  · intro hstill
    have := standing_none hlast hsn (by omega) hstill
    omega
  · intro hbehind r hr
    rw [bit11_iff_ahead] at hbehind
    rw [hrows] at hr
    obtain ⟨hmem, hfar⟩ := List.mem_filter.mp hr
    simp only [decide_eq_true_eq] at hfar
    -- the run went past the frame, and the rows are past the run
    have hsub := @ahead_sub v.last r.sn sn (by omega)
    have := (h.ahead r hmem).2
    omega

/-- The window loop makes one pass at most. -/
theorem slide_eq (h : v.InOrder 2047) (hsn : sn < 4096) (hwin : 1 ≤ v.win ∧ v.win ≤ 511) :
    v.standing sn ≠ none ∧ View.slide k sn nodeFuel v = ⟨v, []⟩ ∨
      Slides (v.slideOnce k sn).view sn ∧
        View.slide k sn nodeFuel v = ⟨(v.slideOnce k sn).view, (v.slideOnce k sn).outs⟩ := by
  by_cases hnone : v.standing sn = none
  · right
    have hslides := h.slideOnce (k := k) hsn hwin hnone
    refine ⟨hslides, ?_⟩
    have hfuel : nodeFuel = 7001 + 1 := rfl
    rw [hfuel]
    unfold View.slide Move.andThen
    rw [if_pos hnone, slide_standing hslides.place]
    dsimp only
    rw [List.append_nil]
  · exact .inl ⟨hnone, slide_standing hnone nodeFuel⟩

/-- The numbers that follow `seq` without a gap, up to the last. -/
def gapless (seq : ℕ) : List ℕ → ℕ
  | [] => seq
  | x :: xs => if x = (seq + 1) % 4096 then gapless x xs else seq

theorem runEnd_eq (seq : ℕ) (rows : List Row) : runEnd seq rows = gapless seq (rows.map Row.sn) := by
  induction rows generalizing seq with
  | nil => rfl
  | cons r rows ih =>
    unfold runEnd
    rw [List.map_cons, gapless, ih]

/-- The number the window stands at for a frame: the last one or, when an
    unfinished A-MSDU was in order, the end of the run from its number. -/
def BaCtl.standsAt (c : BaCtl) (held : List ℕ) (sn amsdu : ℕ) : ℕ :=
  if c.settled sn amsdu ∨ c.flag ≠ 0 then c.last else gapless c.ref held

/-- A frame that is taken for a restarted peer's finds no number that is
    still held 2048 or more ahead of its own. -/
def BaCtl.RestartFits (c : BaCtl) (held : List ℕ) (sn amsdu : ℕ) : Prop :=
  let last := c.standsAt held sn amsdu
  c.state = 4 → bit11 ((sn : ℤ) - last) → peerRestarted c.win last sn →
    ∀ x ∈ held, pastSeq x last → ¬bit11 ((x : ℤ) - sn)

/-- The entry in front of the branches. -/
structure View.Reached (w : View) (sn : ℕ) : Prop where
  orderly : w.Orderly
  state : w.state = 4
  near : bit11 ((sn : ℤ) - w.last) → peerRestarted w.win w.last sn →
    ∀ r ∈ w.rows, ahead sn r.sn ≤ 2047

/-- What is held in order is past the last number. -/
theorem View.InOrder.past {hi : ℕ} {r : Row} (h : v.InOrder hi) (hhi : hi < 2048)
    (hr : r ∈ v.rows) : pastSeq r.sn v.last := by
  have := h.ahead r hr
  unfold pastSeq
  rw [bit11_iff_ahead]
  refine ⟨?_, by omega⟩
  intro heq
  rw [heq] at this
  unfold Kite.ahead at this
  omega

theorem View.Orderly.openWindow (h : v.Orderly) (hsn : pn.sn < 4096) :
    (v.openWindow k pn).view.Orderly := by
  have hlast : ((pn.sn - 1 : ℤ) % 4096).toNat < 4096 := by omega
  refine ⟨h.win, .inr ⟨rfl, hlast, ?_, ?_, List.Pairwise.nil⟩, fun _ _ _ => ⟨hsn, ?_, ?_⟩⟩
  · exact fun r hr => absurd hr List.not_mem_nil
  · exact fun r hr => absurd hr List.not_mem_nil
  · exact ⟨fun r hr => absurd hr List.not_mem_nil, fun r hr => absurd hr List.not_mem_nil,
      List.Pairwise.nil⟩
  · exact fun r hr => absurd hr List.not_mem_nil

theorem View.stateUpdate_rows (v : View) (sn checkType : ℕ) :
    (v.stateUpdate k sn checkType).view.rows.Sublist v.rows := by
  unfold View.stateUpdate
  split
  · exact List.Sublist.refl _
  · split
    · exact List.Sublist.refl _
    · exact (runRest_suffix v.ref v.rows).sublist

theorem View.stateUpdate_standsAt (v : View) (sn checkType : ℕ) :
    (v.stateUpdate k sn checkType).view.last =
      v.toBaCtl.standsAt (v.rows.map Row.sn) sn checkType := by
  unfold View.stateUpdate BaCtl.standsAt
  by_cases hset : v.settled sn checkType
  · rw [if_pos hset, if_pos (.inl hset)]
  · rw [if_neg hset]
    by_cases hflag : v.flag ≠ 0
    · rw [if_pos hflag, if_pos (.inr hflag)]
    · rw [if_neg hflag, if_neg (not_or.mpr ⟨hset, hflag⟩)]
      exact runEnd_eq v.ref v.rows

theorem View.stateUpdate_words (v : View) (sn checkType : ℕ) :
    (v.stateUpdate k sn checkType).view.win = v.win ∧
      (v.stateUpdate k sn checkType).view.state = v.state := by
  unfold View.stateUpdate
  split
  · exact ⟨rfl, rfl⟩
  · split
    · exact ⟨rfl, rfl⟩
    · exact ⟨rfl, rfl⟩

/-- What comes before the branches keeps the entry in order. -/
theorem View.Orderly.arrive (h : v.Orderly) (hsn : pn.sn < 4096) (band : ℕ)
    (hfits : v.RestartFits (v.rows.map Row.sn) pn.sn pn.amsdu) :
    (v.arrive k pn band).view.Reached pn.sn := by
  set v1 : View := (if v.state = 3 then v.openWindow k pn else ⟨v, []⟩ : Move).view with hv1
  have h1 : v1.Orderly ∧ v1.state = 4 := by
    rw [hv1]
    split
    · exact ⟨h.openWindow hsn, rfl⟩
    · next hopen => exact ⟨h, (h.phase.resolve_left fun hwait => hopen hwait.1).1⟩
  set v2 : View := { v1 with band := band } with hv2
  have h2 : v2.Orderly := h1.1.fewer rfl rfl rfl rfl (.inl rfl) (List.Sublist.refl _) fun hstate =>
    (h1.1.order hstate).words rfl rfl
  set v3 := (v2.stateUpdate k pn.sn pn.amsdu).view with hv3
  have h3 : v3.Orderly := h2.stateUpdate pn.amsdu
  obtain ⟨hwin3, hstate3⟩ := v2.stateUpdate_words (k := k) pn.sn pn.amsdu
  have hopen3 : v3.state = 4 := hstate3.trans h1.2
  have horder3 := h3.order hopen3
  have hview : (v.arrive k pn band).view = (View.slide k pn.sn nodeFuel v3).view := rfl
  rw [hview]
  rcases slide_eq (k := k) horder3 hsn h3.win with ⟨-, hslide⟩ | ⟨hslides, hslide⟩
  · rw [hslide]
    refine ⟨h3, hopen3, fun hbehind hrestart r hr => ?_⟩
    -- no slide: the frame meets the window as `standsAt` has it
    have hr2 := (v2.stateUpdate_rows (k := k) pn.sn pn.amsdu).subset hr
    have hold : v.state ≠ 3 := by
      intro hwait
      have hnil : v2.rows = [] := by
        rw [hv2, hv1, if_pos hwait]
        rfl
      rw [hnil] at hr2
      cases hr2
    have hsame : v1 = v := by
      rw [hv1, if_neg hold]
    have hlast : v3.last = v.toBaCtl.standsAt (v.rows.map Row.sn) pn.sn pn.amsdu := by
      rw [hv3, View.stateUpdate_standsAt, hv2, hsame]
      rfl
    have hrows : r ∈ v.rows := by
      rw [hv2, hsame] at hr2
      exact hr2
    have hwin : v3.win = v.win := by
      rw [hv3, hwin3, hv2, hsame]
    rw [hlast] at hbehind
    rw [hlast, hwin] at hrestart
    have hnot := hfits (hsame ▸ h1.2) hbehind hrestart r.sn (List.mem_map_of_mem hrows)
      (hlast ▸ horder3.past (by decide) hr)
    rw [bit11_iff_ahead] at hnot
    omega
  · rw [hslide]
    have hlets := lets_slide k pn.sn nodeFuel v3
    rw [hslide] at hlets
    have hflag : (v3.slideOnce k pn.sn).view.flag ≠ 0 := four_ne_zero
    refine ⟨h3.lets hlets (.inr hflag) fun _ => hslides.order, ?_, fun hbehind _ =>
      hslides.near hbehind⟩
    exact (congrArg BaCtl.state hlets.ctl).trans hopen3

/-! ## The branches -/

/-- An entry with the words a frame left and a list in order. -/
theorem orderly_of_flag (hwin : 1 ≤ w.win ∧ w.win ≤ 511) (hstate : w.state = 4)
    (horder : w.InOrder 2047) (hflag : w.flag ≠ 0) : w.Orderly :=
  ⟨hwin, .inr ⟨hstate, horder⟩, fun _ _ hzero => absurd hzero hflag⟩

/-- Against a number behind the last one, everything is farther. -/
theorem View.InOrder.from_behind {hi : ℕ} {r : Row} (h : v.InOrder hi) (hhi : hi < 2048)
    (hbehind : bit11 ((sn : ℤ) - v.last)) (hsn : sn < 4096) (hr : r ∈ v.rows) :
    Kite.ahead sn r.sn = Kite.ahead sn v.last + Kite.ahead v.last r.sn ∧
      1 ≤ Kite.ahead sn v.last := by
  have hfar := (h.ahead r hr).2
  have hlast := h.last
  rw [bit11_iff_ahead] at hbehind
  unfold Kite.ahead at *
  omega

theorem View.Reached.behind (h : w.Reached pn.sn) (hsn : pn.sn < 4096)
    (hst : w.standing pn.sn = some .behind) (fast : Bool) :
    (w.behind k fast pn band).view.Orderly := by
  have hbehind := standing_behind hst
  have horder := h.orderly.order h.state
  unfold View.behind
  split
  · next hrestart =>
    refine orderly_of_flag h.orderly.win h.state ?_ two_ne_zero
    have hfar := fun r (hr : r ∈ w.rows) => horder.from_behind (by decide) hbehind hsn hr
    constructor
    case last => exact hsn
    case sns => exact horder.sns
    case ahead =>
      intro r hr
      have := hfar r hr
      have := horder.ahead r hr
      exact ⟨by show 2 ≤ ahead pn.sn r.sn; omega, h.near hbehind hrestart r hr⟩
    case sorted =>
      refine horder.sorted.imp_of_mem fun {r r'} hr hr' hlt => ?_
      have := hfar r hr
      have := hfar r' hr'
      show ahead pn.sn r.sn < ahead pn.sn r'.sn
      omega
  · exact orderly_of_flag h.orderly.win h.state (horder.words rfl rfl) two_ne_zero

theorem View.Reached.inOrder (h : w.Reached pn.sn) (hsn : pn.sn < 4096)
    (hst : w.standing pn.sn = some .inOrder) : (w.inOrder k pn).view.Orderly := by
  have horder := h.orderly.order h.state
  have hone : ahead w.last pn.sn = 1 := standing_inOrder hst
  have hrises := horder.rises (by decide)
  unfold View.inOrder
  by_cases hend : pn.amsdu ≤ 1
  · rw [if_pos hend]
    have hmove : (w.moveLast k pn.sn).view.InOrder 2047 := by
      refine hrises.moveLast hsn (by omega) fun r hr => ?_
      have := (horder.ahead r hr).1
      omega
    refine ⟨h.orderly.win, .inr ⟨h.state, hmove.words rfl rfl⟩, fun _ hamsdu _ => ?_⟩
    -- the frame ends its A-MSDU
    have hcode : (pn.amsdu + 254) % 256 ≤ 1 := hamsdu
    omega
  · rw [if_neg hend]
    refine ⟨h.orderly.win, .inr ⟨h.state, horder.words rfl rfl⟩, fun _ _ _ => ?_⟩
    have hnew : ∀ r ∈ w.rows, ahead pn.sn r.sn = ahead w.last r.sn - 1 := by
      intro r hr
      have := (horder.ahead r hr).1
      rw [@ahead_sub w.last _ _ (by omega), hone]
    refine ⟨hsn, ⟨horder.sns, ?_, ?_⟩, ?_⟩
    · intro r hr
      have := hnew r hr
      have := (horder.ahead r hr).2
      show ahead pn.sn r.sn < 2048
      omega
    · refine horder.sorted.imp_of_mem fun {r r'} hr hr' hlt => ?_
      have := hnew r hr
      have := hnew r' hr'
      have := (horder.ahead r hr).1
      show ahead pn.sn r.sn < ahead pn.sn r'.sn
      omega
    · intro r hr
      have := hnew r hr
      have := (horder.ahead r hr).1
      show 1 ≤ ahead pn.sn r.sn
      omega

/-- A new number in the half of the number space ahead has its place
    between the rows behind it and the others. -/
theorem View.InOrder.insert {c : Cell} (h : v.InOrder 2047) (hsn : c.frame.sn < 4096)
    (htwo : 2 ≤ Kite.ahead v.last c.frame.sn) (hnear : Kite.ahead v.last c.frame.sn ≤ 2047)
    (hnew : (v.after c.frame.sn).head?.map Row.sn ≠ some c.frame.sn) (hlast : w.last = v.last)
    (hrows : w.rows = v.before c.frame.sn ++ ⟨c, []⟩ :: v.after c.frame.sn) : w.InOrder 2047 := by
  set d := Kite.ahead v.last c.frame.sn with hd
  obtain ⟨hbefore, hafter⟩ := (h.rises (by decide)).span_eq (c := d)
    (p := fun r => bit11 ((r.sn : ℤ) - c.frame.sn)) fun r hr =>
      bit11_iff_lt ((h.ahead r hr).2.trans_lt (by decide)) (by omega)
  have hbefore : v.before c.frame.sn = v.rows.filter fun r => Kite.ahead v.last r.sn < d := hbefore
  have hafter : v.after c.frame.sn = v.rows.filter fun r => d ≤ Kite.ahead v.last r.sn := hafter
  have hsorted : (v.after c.frame.sn).Pairwise fun r r' =>
      Kite.ahead v.last r.sn < Kite.ahead v.last r'.sn := by
    rw [hafter]
    exact h.sorted.sublist List.filter_sublist
  have hmem : ∀ r ∈ v.after c.frame.sn, r ∈ v.rows ∧ d ≤ Kite.ahead v.last r.sn := by
    intro r hr
    rw [hafter] at hr
    simpa using List.mem_filter.mp hr
  -- the first row behind the new one has another number, so it is farther
  have hfar : ∀ r ∈ v.after c.frame.sn, d < Kite.ahead v.last r.sn := by
    cases hrest : v.after c.frame.sn with
    | nil => exact fun r hr => absurd hr List.not_mem_nil
    | cons r rest =>
      rw [hrest] at hnew hsorted hmem
      obtain ⟨hr, hle⟩ := hmem r List.mem_cons_self
      have hne : Kite.ahead v.last r.sn ≠ d := by
        intro heq
        refine hnew (congrArg some ?_)
        exact (ahead_eq_iff (h.sns r hr) hsn).mp heq
      intro r' hr'
      rcases List.mem_cons.mp hr' with rfl | hr'
      · omega
      · have := List.rel_of_pairwise_cons hsorted hr'
        omega
  have hold : ∀ r ∈ w.rows, r = ⟨c, []⟩ ∨ r ∈ v.rows := by
    intro r hr
    rw [hrows, List.mem_append, List.mem_cons] at hr
    rcases hr with hr | hr | hr
    · rw [hbefore] at hr
      exact .inr (List.mem_of_mem_filter hr)
    · exact .inl hr
    · exact .inr (hmem r hr).1
  constructor
  case last =>
    rw [hlast]
    exact h.last
  case sns =>
    intro r hr
    rcases hold r hr with rfl | hr
    · exact hsn
    · exact h.sns r hr
  case ahead =>
    intro r hr
    rw [hlast]
    rcases hold r hr with rfl | hr
    · exact ⟨htwo, hnear⟩
    · exact h.ahead r hr
  case sorted =>
    rw [hlast, hrows, List.pairwise_append, List.pairwise_cons]
    refine ⟨?_, ⟨hfar, hsorted⟩, ?_⟩
    · rw [hbefore]
      exact h.sorted.sublist List.filter_sublist
    · intro r hr r' hr'
      rw [hbefore] at hr
      have hlow := (List.mem_filter.mp hr).2
      simp only [decide_eq_true_eq] at hlow
      rcases List.mem_cons.mp hr' with rfl | hr'
      · exact hlow
      · exact hlow.trans (hfar r' hr')

/-! ## Numbers are all that matters -/

theorem mem_same {rows rows' : List Row} {r : Row} (hsns : rows.map Row.sn = rows'.map Row.sn)
    (hr : r ∈ rows) : ∃ r' ∈ rows', r'.sn = r.sn := by
  have hmem : r.sn ∈ rows'.map Row.sn := by
    rw [← hsns]
    exact List.mem_map_of_mem hr
  exact List.mem_map.mp hmem

theorem sorted_same {base : ℕ} {rows rows' : List Row}
    (hsns : rows.map Row.sn = rows'.map Row.sn)
    (h : rows'.Pairwise fun r r' => ahead base r.sn < ahead base r'.sn) :
    rows.Pairwise fun r r' => ahead base r.sn < ahead base r'.sn := by
  rw [← List.pairwise_map (R := fun x y => ahead base x < ahead base y)] at h ⊢
  rw [hsns]
  exact h

theorem View.InOrder.same {hi : ℕ} (h : v.InOrder hi) (hlast : w.last = v.last)
    (hsns : w.rows.map Row.sn = v.rows.map Row.sn) : w.InOrder hi := by
  constructor
  case last =>
    rw [hlast]
    exact h.last
  case sns =>
    intro r hr
    obtain ⟨r', hr', heq⟩ := mem_same hsns hr
    rw [← heq]
    exact h.sns r' hr'
  case ahead =>
    intro r hr
    obtain ⟨r', hr', heq⟩ := mem_same hsns hr
    rw [← heq, hlast]
    exact h.ahead r' hr'
  case sorted =>
    rw [hlast]
    exact sorted_same hsns h.sorted

theorem View.Pending.same (h : v.Pending) (href : w.ref = v.ref)
    (hsns : w.rows.map Row.sn = v.rows.map Row.sn) : w.Pending := by
  obtain ⟨hlt, ⟨hnums, hnear, hsorted⟩, hpast⟩ := h
  rw [← href] at hlt hnear hsorted hpast
  refine ⟨hlt, ⟨?_, ?_, sorted_same hsns hsorted⟩, ?_⟩
  · intro r hr
    obtain ⟨r', hr', heq⟩ := mem_same hsns hr
    rw [← heq]
    exact hnums r' hr'
  · intro r hr
    obtain ⟨r', hr', heq⟩ := mem_same hsns hr
    rw [← heq]
    exact hnear r' hr'
  · intro r hr
    obtain ⟨r', hr', heq⟩ := mem_same hsns hr
    rw [← heq]
    exact hpast r' hr'

theorem View.Orderly.same (h : v.Orderly) (hsame : SameNumbers w v) : w.Orderly := by
  obtain ⟨hctl, hsns⟩ := hsame
  obtain ⟨hwin, hphase, hpending⟩ := h
  rw [← hctl] at hwin hphase hpending
  refine ⟨hwin, ?_, fun hstate hamsdu hflag => ?_⟩
  · rcases hphase with ⟨hwait, hnil⟩ | ⟨hopen, horder⟩
    · rw [hnil] at hsns
      exact .inl ⟨hwait, List.map_eq_nil_iff.mp hsns⟩
    · exact .inr ⟨hopen, horder.same (congrArg BaCtl.last hctl) hsns⟩
  · exact (hpending hstate hamsdu hflag).same (congrArg BaCtl.ref hctl) hsns

theorem View.Reached.hold (h : w.Reached pn.sn) (hsn : pn.sn < 4096)
    (hst : w.standing pn.sn = some .inside) (fresh : Option NodeRef) (tick : ℕ) :
    (w.hold fresh pn tick).view.Orderly := by
  have horder := h.orderly.order h.state
  have hwin := h.orderly.win
  obtain ⟨htwo, hin⟩ := standing_inside horder.last hsn hwin.2 hst
  have hnear : ahead w.last pn.sn ≤ 2047 := by omega
  cases fresh with
  | none => exact h.orderly
  | some node =>
    cases hchain : w.chain with
    | some sub =>
      have hview : (w.hold (some node) pn tick).view =
          (w.chainTo sub ⟨node, pn, tick⟩).setCtl (w.toBaCtl.seen pn 3) := by
        unfold View.hold
        rw [hchain]
        rfl
      rw [hview]
      exact orderly_of_flag hwin h.state (horder.same rfl (sns_chainTo w sub _)) three_ne_zero
    | none =>
      set c : Cell := ⟨node, pn, tick⟩ with hc
      have hview : (w.hold (some node) pn tick).view =
          (w.insert c).view.setCtl ((w.insert c).view.toBaCtl.seen pn 3) := by
        unfold View.hold
        rw [hchain]
      rw [hview]
      unfold View.insert
      split
      · exact orderly_of_flag hwin h.state (horder.words rfl rfl) three_ne_zero
      · next hnew =>
        exact orderly_of_flag hwin h.state (horder.insert hsn htwo hnear hnew rfl rfl)
          three_ne_zero

theorem View.Reached.take {st : Standing} (h : w.Reached pn.sn) (hsn : pn.sn < 4096)
    (hst : w.standing pn.sn = some st) (flags : RxFlags) (fresh : Option NodeRef) (band : ℕ) :
    (View.take k flags fresh pn band st w).view.Orderly := by
  cases st with
  | inOrder => exact h.inOrder hsn hst
  | duplicate =>
    exact orderly_of_flag h.orderly.win h.state ((h.orderly.order h.state).words rfl rfl)
      one_ne_zero
  | behind => exact h.behind hsn hst flags.fast
  | inside => exact h.hold hsn hst fresh flags.tick

/-- A BAR mail with a number of 12 bits. -/
theorem View.Orderly.barInfo {ssn : ℕ} (h : v.Orderly) (hssn : ssn < 4096) :
    (v.barInfo k ssn).view.Orderly := by
  have hupdate : (v.stateUpdate k ssn 3).view.Orderly := h.stateUpdate 3
  set w := (v.stateUpdate k ssn 3).view with hw
  show ((if bit11 ((w.last : ℤ) - ssn) then w.advance k (if ssn ≠ 0 then ssn - 1 else 4095)
    else ⟨w, []⟩ : Move)).view.Orderly
  split
  · next hahead =>
    refine hupdate.advance fun hstate => ?_
    have hlast := (hupdate.order hstate).last
    unfold bit11 at hahead
    unfold ahead
    split <;> omega
  · exact hupdate

end ClankerNPU.Kite
