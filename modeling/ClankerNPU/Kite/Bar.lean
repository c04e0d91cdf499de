import ClankerNPU.Kite.Late
import ClankerNPU.Kite.Window

/-! # A BAR moves the window

    `npu_set_bar_info` releases what is held before the number a BAR
    names and what follows it without a gap. The mail's number field has
    13 bits and is not cut to 12: a number from 4097 on leaves a last
    number that is no sequence number, unless a run brings it back. -/

namespace ClankerNPU.Kite

/-! ## The mail -/

/-- The number field of a BAR mail. -/
def barSsn (packed : BitVec 32) : ℕ := ((packed <<< 8) >>> 19).toNat

/-- `npu_set_bar_info` -/
def npuSetBarInfoMail (s : BaState) (dbdc : Bool) (band : ℕ) (packed : BitVec 32) : BaState :=
  let tid := (packed &&& 7).toNat
  let ssn := barSsn packed
  let wcid := ((packed >>> 3) &&& 0xFF).toNat
  if wcid = 0 then s else npuSetBarInfo s (baKey dbdc band wcid tid) ssn

theorem barSsn_lt (packed : BitVec 32) : barSsn packed < 8192 := by
  unfold barSsn
  rw [BitVec.toNat_ushiftRight, Nat.shiftRight_eq_div_pow]
  have := (packed <<< 8).isLt
  omega

/-! ## The law -/

/-- A number is ahead of the last one, as the mail's handler tests it. -/
def Ahead (last ssn : ℕ) : Prop := 1 ≤ ahead last ssn ∧ ahead last ssn ≤ 2048

instance (last ssn : ℕ) : Decidable (Ahead last ssn) := inferInstanceAs (Decidable (_ ∧ _))

/-- From `s` to `s'` the window moved `fin` numbers, to the one before
    `ssn` or to the end of the run that starts at `ssn`: what was held up
    to there is sent on in order, the rest stays. -/
structure BarMoved (s s' : BaState) (k : BaKey) (v : View) (ssn fin : ℕ) : Prop where
  start : ahead v.last ssn ≤ fin + 1
  run : ∀ j, ahead v.last ssn ≤ j → j ≤ fin → HeldAt v.last v.rows j
  gap : ¬HeldAt v.last v.rows (fin + 1)
  forward : fin < 2048
  last : (s'.entry k).last < 4096
  stop : ahead v.last (s'.entry k).last = fin
  outs : s'.outs = s.outs ++ v.rowOuts k (v.rows.filter fun r => ahead v.last r.sn < fin + 1)
  list : EntryRep s'.node (s'.entry k) { v with
    last := (s'.entry k).last, rows := v.rows.filter fun r => fin < ahead v.last r.sn }

/-- A number ahead of the last one moves the window, another changes
    nothing. -/
structure BarLaw (s s' : BaState) (k : BaKey) (v : View) (ssn : ℕ) : Prop where
  moves : Ahead v.last ssn → ∃ fin, BarMoved s s' k v ssn fin
  stays : ¬Ahead v.last ssn → s' = s

variable {s : BaState} {h : HeldState} {k : BaKey} {v : View} {last ssn : ℕ}

/-! ## Numbers of 13 bits -/

theorem bit11_iff_Ahead :
    bit11 ((last : ℤ) - ssn) ↔ Ahead last (ssn % 4096) := by
  unfold bit11 Ahead ahead
  omega

theorem pastSeq_far {x m : ℕ} (hx : x < 4096) (hxn : ahead last x < 2048)
    (hm : ahead last m < 2048) : ¬pastSeq x (m + 4096) ↔ ahead last x < ahead last m := by
  rw [← bit11_iff_lt hxn hm]
  unfold pastSeq bit11
  omega

theorem runEnd_of_head {seq : ℕ} {rows : List Row}
    (hhead : ∀ r ∈ rows.head?, r.sn ≠ (seq + 1) % 4096) : runEnd seq rows = seq := by
  cases rows with
  | nil => rfl
  | cons r rows =>
    unfold runEnd
    rw [if_neg (hhead r rfl)]

/-- A scan only looks at the number that comes next. -/
theorem moveLast_far {m : ℕ} {r : Row} {rows : List Row} (hrows : v.rows = r :: rows)
    (hr : r.sn = (m + 1) % 4096) : v.moveLast k (m + 4096) = v.moveLast k m := by
  have hr' : r.sn = (m + 4096 + 1) % 4096 := by omega
  unfold View.moveLast
  rw [hrows]
  unfold runRest runEnd runOf
  rw [if_pos hr, if_pos hr', if_pos hr, if_pos hr', if_pos hr, if_pos hr']

/-- Releases up to `m + 4096` leave the row of `m`. -/
theorem Rises.upTo_far {rows : List Row} {m : ℕ} (h : Rises last rows)
    (hm : ahead last m < 2048) :
    (rows.takeWhile fun r => ¬pastSeq r.sn (m + 4096)) =
        (rows.filter fun r => ahead last r.sn < ahead last m) ∧
      (rows.dropWhile fun r => ¬pastSeq r.sn (m + 4096)) =
        rows.filter fun r => ahead last m ≤ ahead last r.sn :=
  h.span_eq fun r hr => pastSeq_far (h.sns r hr) (h.near r hr) hm

/-- With the row of `m` missing and the next one held, 12 more bits do no
    harm. -/
theorem advance_far {m : ℕ} (h : Rises v.last v.rows) (hm : m < 4096)
    (hnear : ahead v.last m < 2047) (hgap : ¬HeldAt v.last v.rows (ahead v.last m))
    (hheld : HeldAt v.last v.rows (ahead v.last m + 1)) :
    v.advance k (m + 4096) = v.advance k m := by
  obtain ⟨htake, hdrop⟩ := h.upTo hm (by omega)
  obtain ⟨htake', hdrop'⟩ := h.upTo_far (m := m) (by omega)
  have hne : ∀ r ∈ v.rows, ahead v.last r.sn ≠ ahead v.last m := fun r hr heq => hgap ⟨r, hr, heq⟩
  have hfirst : (v.rows.filter fun r => ahead v.last r.sn < ahead v.last m) =
      v.rows.filter fun r => ahead v.last r.sn < ahead v.last m + 1 := by
    refine List.filter_congr fun r hr => ?_
    have := hne r hr
    simp only [decide_eq_decide]
    omega
  have hrest : (v.rows.filter fun r => ahead v.last m ≤ ahead v.last r.sn) =
      v.rows.filter fun r => ahead v.last m + 1 ≤ ahead v.last r.sn := by
    refine List.filter_congr fun r hr => ?_
    have := hne r hr
    simp only [decide_eq_decide]
    omega
  have hind : v.indicate k (m + 4096) = v.indicate k m := by
    unfold View.indicate
    rw [htake', hdrop', hfirst, hrest, htake, hdrop]
  -- the first row left is the one that comes next
  obtain ⟨r, rows, hrows, hr⟩ : ∃ r rows, (v.indicate k m).view.rows = r :: rows ∧
      r.sn = (m + 1) % 4096 := by
    obtain ⟨r', hr', hd⟩ := hheld
    have hmem : r' ∈ (v.indicate k m).view.rows := by
      show r' ∈ v.rows.dropWhile fun r => ¬pastSeq r.sn m
      rw [hdrop]
      exact List.mem_filter.mpr ⟨hr', by simpa using hd.ge⟩
    have hsorted : Rises v.last (v.indicate k m).view.rows :=
      h.of_sublist (List.dropWhile_suffix _).sublist
    have hfar : ∀ r ∈ (v.indicate k m).view.rows, ahead v.last m + 1 ≤ ahead v.last r.sn := by
      intro r hr
      have hr : r ∈ v.rows.dropWhile fun r => ¬pastSeq r.sn m := hr
      rw [hdrop] at hr
      simpa using (List.mem_filter.mp hr).2
    cases hrows : (v.indicate k m).view.rows with
    | nil =>
      rw [hrows] at hmem
      cases hmem
    | cons r rows =>
      rw [hrows] at hmem hsorted hfar
      refine ⟨r, rows, rfl, (@next_iff v.last r.sn m (hsorted.sns r List.mem_cons_self)
        (by omega)).mpr ?_⟩
      have hlow := hfar r List.mem_cons_self
      rcases List.mem_cons.mp hmem with rfl | hmem
      · exact hd
      · have := List.rel_of_pairwise_cons hsorted.sorted hmem
        omega
  unfold View.advance Move.andThen
  rw [hind, moveLast_far hrows hr]

/-- Otherwise the last number is left beyond 12 bits. -/
theorem advance_far_last {m : ℕ} (h : Rises v.last v.rows) (hnear : ahead v.last m < 2048)
    (hbad : HeldAt v.last v.rows (ahead v.last m) ∨ ¬HeldAt v.last v.rows (ahead v.last m + 1)) :
    (v.advance k (m + 4096)).view.last = m + 4096 := by
  obtain ⟨-, hdrop⟩ := h.upTo_far hnear
  show runEnd (m + 4096) (v.rows.dropWhile fun r => ¬pastSeq r.sn (m + 4096)) = m + 4096
  refine runEnd_of_head fun r hr hnext => ?_
  have hmem := List.mem_of_mem_head? hr
  have hsorted : Rises v.last (v.rows.dropWhile fun r => ¬pastSeq r.sn (m + 4096)) :=
    h.of_sublist (List.dropWhile_suffix _).sublist
  have hrow : r ∈ v.rows := (List.dropWhile_suffix _).subset hmem
  have hd : ahead v.last r.sn = ahead v.last m + 1 := by
    rw [← next_iff (h.sns r hrow) (by omega)]
    omega
  rcases hbad with ⟨r', hr', hd'⟩ | hgap
  · -- the row of `m` is still there, in front of `r`
    have hmem' : r' ∈ v.rows.dropWhile fun r => ¬pastSeq r.sn (m + 4096) := by
      rw [hdrop]
      exact List.mem_filter.mpr ⟨hr', by simpa using hd'.ge⟩
    obtain ⟨rows, hrows⟩ := List.head?_eq_some_iff.mp hr
    rw [hrows] at hmem' hsorted
    rcases List.mem_cons.mp hmem' with rfl | hmem'
    · omega
    · have := List.rel_of_pairwise_cons hsorted.sorted hmem'
      omega
  · exact hgap ⟨r, hrow, hd⟩

/-! ## When the law holds -/

/-- An advance of the view is a move of the window. -/
theorem Advanced.barMoved {s' : BaState} {m : Move} {seq fin : ℕ}
    (hadv : Advanced k v seq m fin) (hrep : Rep s h 0)
    (hrep' : Rep s' (h.set k m) 0) (hssn : ahead v.last ssn = ahead v.last seq + 1)
    (hin : ∀ r ∈ v.rows, ahead v.last r.sn < 2048) (hnear : ahead v.last seq < 2048) :
    BarMoved s s' k v ssn fin := by
  have hview : (h.set k m).view k = m.view := HeldState.set_view_self
  have hlast : (s'.entry k).last = m.view.last := by
    rw [← hview]
    exact congrArg BaCtl.last (hrep'.entry k).ctl
  refine ⟨?_, ?_, hadv.gap, ?_, ?_, ?_, ?_, ?_⟩
  · have := hadv.start
    omega
  · intro j hj hle
    exact hadv.run j (by omega) hle
  · by_cases heq : fin = ahead v.last seq
    · omega
    · obtain ⟨r, hr, hd⟩ := hadv.run fin (by have := hadv.start; omega) le_rfl
      have := hin r hr
      omega
  · rw [hlast]
    exact hadv.last
  · rw [hlast]
    exact hadv.stop
  · rw [hrep'.outs, hrep.outs, ← hadv.outs]
    rfl
  · have hlist := hrep'.entry k
    rw [hview, hadv.view] at hlist
    rw [hlast]
    exact hlist

/-- What a BAR mail does to an entry with no A-MSDU open. -/
theorem barMail_eq {dbdc : Bool} {band : ℕ} {packed : BitVec 32}
    (hwcid : ((packed >>> 3) &&& 0xFF).toNat ≠ 0)
    (hk : baKey dbdc band ((packed >>> 3) &&& 0xFF).toNat (packed &&& 7).toNat = k)
    (hopen : ¬(s.entry k).amsduOpen) :
    npuSetBarInfoMail s dbdc band packed =
      if Ahead (s.entry k).last (barSsn packed % 4096) then
        baMoveLast (baIndicateLeSeq s k (if barSsn packed ≠ 0 then barSsn packed - 1 else 4095)) k
          (if barSsn packed ≠ 0 then barSsn packed - 1 else 4095)
      else s := by
  unfold npuSetBarInfoMail npuSetBarInfo
  simp only
  rw [if_neg hwcid, hk, stateUpdate_of_not_open hopen]
  simp only [bit11_iff_Ahead]

/-- A number ahead is one more than the one before it. -/
theorem ahead_of_Ahead {seq : ℕ} (hahead : Ahead last ((seq + 1) % 4096)) :
    ahead last ((seq + 1) % 4096) = ahead last seq + 1 := by
  obtain ⟨hpos, -⟩ := hahead
  refine ahead_succ ?_
  have := ahead_lt last seq
  unfold ahead at *
  omega

section law

variable (hrep : Rep s h 0) (hrises : Rises (h.view k).last (h.view k).rows)
include hrep hrises

/-- A number before the SSN that fits in 12 bits moves the window. -/
theorem barLaw_of_fits {seq : ℕ} (hseq : seq < 4096)
    (hahead : Ahead (h.view k).last ((seq + 1) % 4096)) :
    BarLaw s (baMoveLast (baIndicateLeSeq s k seq) k seq) k (h.view k) ((seq + 1) % 4096) := by
  have hnext := ahead_of_Ahead hahead
  obtain ⟨hpos, hle⟩ := hahead
  obtain ⟨fin, hadv⟩ := hrises.advance (k := k) hseq (by omega)
  refine ⟨fun _ => ⟨fin, ?_⟩, fun hnot => absurd ⟨hpos, hle⟩ hnot⟩
  exact hadv.barMoved hrep (hrep.advance k seq) hnext hrises.near (by omega)

/-- One of 13 bits does just when it changes nothing that the list cannot
    tell. -/
theorem barLaw_far_iff {m : ℕ} (hm : m < 4096)
    (hahead : Ahead (h.view k).last ((m + 1) % 4096)) :
    BarLaw s (baMoveLast (baIndicateLeSeq s k (m + 4096)) k (m + 4096)) k (h.view k)
        ((m + 1) % 4096) ↔
      HeldAt (h.view k).last (h.view k).rows (ahead (h.view k).last m + 1) ∧
        ¬HeldAt (h.view k).last (h.view k).rows (ahead (h.view k).last m) := by
  have hrep' := hrep.advance k (m + 4096)
  have hnext := ahead_of_Ahead hahead
  obtain ⟨hpos, hle⟩ := hahead
  constructor
  · rintro ⟨hmoves, -⟩
    obtain ⟨fin, hmoved⟩ := hmoves ⟨hpos, hle⟩
    by_contra hbad
    have hlast := hmoved.last
    rw [(congrArg BaCtl.last (hrep'.entry k).ctl), HeldState.app_view_self,
      advance_far_last hrises (by omega) (by tauto)] at hlast
    omega
  · rintro ⟨hheld, hgap⟩
    have hnear : ahead (h.view k).last m < 2047 := by
      obtain ⟨r, hr, hd⟩ := hheld
      have := hrises.near r hr
      omega
    have hsame : h.app k (View.advance k (m + 4096)) = h.set k ((h.view k).advance k m) :=
      congrArg (h.set k) (advance_far hrises hm hnear hgap hheld)
    rw [hsame] at hrep'
    obtain ⟨fin, hadv⟩ := hrises.advance (k := k) hm (by omega)
    refine ⟨fun _ => ⟨fin, hadv.barMoved hrep hrep' hnext hrises.near (by omega)⟩, ?_⟩
    exact fun hnot => absurd ⟨hpos, hle⟩ hnot

end law

/-- A BAR mail moves the window to its number just when the number fits in
    12 bits (4096 does as well), is not ahead, or is held while the one
    before it is not. -/
theorem bar_exact_iff {dbdc : Bool} {band : ℕ} {packed : BitVec 32} (hrep : Rep s h 0)
    (hwcid : ((packed >>> 3) &&& 0xFF).toNat ≠ 0)
    (hk : baKey dbdc band ((packed >>> 3) &&& 0xFF).toNat (packed &&& 7).toNat = k)
    (horder : (h.view k).InOrder 2047) (hopen : ¬(h.view k).amsduOpen) :
    BarLaw s (npuSetBarInfoMail s dbdc band packed) k (h.view k) (barSsn packed % 4096) ↔
      barSsn packed ≤ 4096 ∨ ¬Ahead (h.view k).last (barSsn packed % 4096) ∨
        HeldAt (h.view k).last (h.view k).rows
            (ahead (h.view k).last (barSsn packed % 4096)) ∧
          ¬HeldAt (h.view k).last (h.view k).rows
            (ahead (h.view k).last (barSsn packed % 4096) - 1) := by
  have hlt : barSsn packed < 8192 := barSsn_lt packed
  have hctl : (s.entry k).toBaCtl = (h.view k).toBaCtl := (hrep.entry k).ctl
  have hrises := horder.rises (by decide)
  rw [barMail_eq hwcid hk (by rw [hctl]; exact hopen), hctl]
  generalize barSsn packed = ssn at hlt ⊢
  by_cases hahead : Ahead (h.view k).last (ssn % 4096)
  · rw [if_pos hahead]
    by_cases hfits : ssn ≤ 4096
    · obtain ⟨seq, hseq, hbefore, hsucc⟩ : ∃ seq, seq < 4096 ∧
          (if ssn ≠ 0 then ssn - 1 else 4095) = seq ∧ ssn % 4096 = (seq + 1) % 4096 := by
        refine ⟨_, ?_, rfl, ?_⟩ <;> split <;> omega
      rw [hbefore, hsucc]
      rw [hsucc] at hahead
      exact iff_of_true (barLaw_of_fits hrep hrises hseq hahead) (.inl hfits)
    · obtain ⟨m, rfl⟩ : ∃ m, ssn = m + 4097 := ⟨ssn - 4097, by omega⟩
      have hsucc : (m + 4097) % 4096 = (m + 1) % 4096 := by omega
      have hbefore : (if m + 4097 ≠ 0 then m + 4097 - 1 else 4095) = m + 4096 :=
        if_pos (Nat.succ_ne_zero _)
      rw [hsucc] at hahead ⊢
      rw [hbefore, or_iff_right hfits, or_iff_right (not_not_intro hahead), ahead_of_Ahead hahead,
        Nat.add_sub_cancel]
      exact barLaw_far_iff hrep hrises (by omega) hahead
  · rw [if_neg hahead]
    exact iff_of_true ⟨fun h => absurd h hahead, fun _ => rfl⟩ (.inr (.inl hahead))

/-- A frame inside the window is held in the node the pools have. -/
theorem Rep.arrives {sn bufId : ℕ} {node : NodeRef} (hrep : Rep s h 0)
    (hstate : (h.view key1).state = 4) (hopen : ¬(h.view key1).amsduOpen)
    (hband : (h.view key1).band = 0) (hchain : (h.view key1).chain = none)
    (hstand : (h.view key1).standing sn = some .inside)
    (hnode : (reorderNodeAlloc (kiteArrival s key1 (subframe sn 0 bufId) 0).1).map Prod.fst =
      some node) :
    Rep (s.arrives sn 0 bufId) (h.app key1 (View.hold (some node) (subframe sn 0 bufId) 0)) 0 := by
  have hview : ({ h.view key1 with band := 0 } : View) = h.view key1 := by rw [← hband]
  have hctl := (hrep.entry key1).ctl
  have hstate' : (s.entry key1).state ≠ 0 := by
    rw [congrArg BaCtl.state hctl, hstate]
    decide
  obtain ⟨hrep', hplace⟩ := @Rep.arrival key1 (subframe sn 0 bufId) 0 s h hrep hstate (by
    rw [hview]
    exact settled_of_not_open hopen sn 0)
  -- the window has the frame's place and does not slide
  have hstay : View.slide key1 sn nodeFuel ({ h.view key1 with band := 0 } : View) =
      ⟨h.view key1, []⟩ := by
    rw [hview]
    exact slide_standing (by rw [hstand]; exact Option.some_ne_none _) nodeFuel
  have hnum : (subframe sn 0 bufId).sn = sn := rfl
  rw [hnum, hstay] at hrep' hplace
  rw [HeldState.set_same] at hrep'
  have hinside := Option.some.inj (hplace.symm.trans hstand)
  have hhold : Rep (kiteHold _ key1 (subframe sn 0 bufId) 0) _ 0 :=
    hrep'.hold (fun sub hsub => by rw [hchain] at hsub; cases hsub) 0
  rw [hnode] at hhold
  have hclassify : s.arrives sn 0 bufId =
      kiteHold (kiteArrival s key1 (subframe sn 0 bufId) 0).1 key1 (subframe sn 0 bufId) 0 := by
    have hreorder : s.arrives sn 0 bufId = kiteReorder s key1 noFlags (subframe sn 0 bufId) 0 := by
      show (if (s.entry key1).state = 0 then _ else _ : BaState × Verdict).1 = _
      rw [if_neg hstate']
      rfl
    rw [hreorder, kiteReorder_eq, hinside]
    rfl
  rw [hclassify]
  exact hhold

/-- 105 and 110 are held, and 100 is the last number. -/
def twoHeld : BaState := (window100.arrives 105 0 7).arrives 110 0 8

/-- The views of `twoHeld`. -/
def heldTwo : HeldState :=
  (nothingHeld.app key1 (View.hold (some ⟨.pri, 0⟩) (subframe 105 0 7) 0)).app key1
    (View.hold (some ⟨.pri, 1⟩) (subframe 110 0 8) 0)

theorem rep_twoHeld : Rep twoHeld heldTwo 0 := by
  have hfirst : Rep (window100.arrives 105 0 7)
      (nothingHeld.app key1 (View.hold (some ⟨.pri, 0⟩) (subframe 105 0 7) 0)) 0 :=
    rep_window100.arrives (by decide) (by decide) (by decide) (by decide) (by decide)
      (by decide +kernel)
  exact hfirst.arrives (by decide) (by decide) (by decide) (by decide) (by decide)
    (by decide +kernel)

/-- A BAR of 110 for station 1: the frame before its number and the one of
    its number are sent. -/
theorem bar_exact_iff_held :
    (npuSetBarInfoMail twoHeld false 0 225288#32).outs =
        [bridgeOut key1 (subframe 105 0 7) 0 0, bridgeOut key1 (subframe 110 0 8) 0 0] ∧
      BarLaw twoHeld (npuSetBarInfoMail twoHeld false 0 225288#32) key1 (heldTwo.view key1)
        (barSsn 225288#32 % 4096) := by
  refine ⟨by decide +kernel, ?_⟩
  refine (bar_exact_iff rep_twoHeld (by decide) (by decide) ?_ (by decide)).mpr
    (.inl (by decide))
  exact ⟨by decide, by decide, by decide, by decide⟩

/-- With bit 23 of the mail set the last number becomes 4295. -/
theorem bar_beyond :
    barSsn 8798216#32 = 4296 ∧
      ((npuSetBarInfoMail window100 false 0 8798216#32).entry key1).last = 4295 ∧
      ¬BarLaw window100 (npuSetBarInfoMail window100 false 0 8798216#32) key1
        (nothingHeld.view key1) (4296 % 4096) := by
  have hlast : ((npuSetBarInfoMail window100 false 0 8798216#32).entry key1).last = 4295 := by
    decide +kernel
  refine ⟨by decide, hlast, fun hlaw => ?_⟩
  obtain ⟨fin, hmoved⟩ := hlaw.moves (by decide)
  have := hmoved.last
  omega

end ClankerNPU.Kite
