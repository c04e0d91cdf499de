import ClankerNPU.Kite.Keeps
import ClankerNPU.Kite.Late

/-! # Where `entry[3]` points

    The first subframe of a held A-MSDU leaves its node in `entry[3]` for
    the others. Timeouts and slides release the node and leave the
    pointer alone. That is safe as long as the window has then gone on
    past the A-MSDU's number, so that its other subframes are not held.
    Held numbers that lie more than half the number space behind the
    A-MSDU's break this: their release takes the window to where that
    number is ahead again. -/

open LinkedList

namespace ClankerNPU.Kite

/-! ## Past a number -/

/-- With `x` as the last number, `sn` is between 2 and 2047 ahead. -/
def Astray (sn x : ℕ) : Prop := 2 ≤ ahead x sn ∧ ahead x sn ≤ 2047

instance (sn x : ℕ) : Decidable (Astray sn x) := inferInstanceAs (Decidable (_ ∧ _))

theorem not_astray_self (sn : ℕ) : ¬Astray sn sn := by
  unfold Astray ahead
  omega

/-- A number the window is past is not held, and does not slide it. -/
theorem standing_not_astray {c : BaCtl} {sn : ℕ} (hlast : c.last < 4096) (hsn : sn < 4096)
    (h : ¬Astray sn c.last) : c.standing sn ≠ none ∧ c.standing sn ≠ some .inside := by
  unfold Astray at h
  have hcases : ahead c.last sn = 0 ∨ ahead c.last sn = 1 ∨ 2048 ≤ ahead c.last sn := by omega
  unfold BaCtl.standing
  rcases hcases with hzero | hone | hbehind
  · have hsame : c.last = sn := by
      unfold ahead at hzero
      omega
    rw [if_neg (by omega), if_pos hsame]
    simp
  · have hnext : (c.last + 1) % 4096 = sn := by
      unfold ahead at hone
      omega
    rw [if_pos hnext]
    simp
  · have hbit := bit11_iff_ahead.mpr hbehind
    rw [if_pos hbit]
    split_ifs <;> simp

/-- What a release up to `seq` takes does not lie ahead of it. -/
theorem not_astray_of_released {sn seq : ℕ} (h : ¬pastSeq sn seq) : ¬Astray sn seq := by
  unfold pastSeq bit11 at h
  unfold Astray ahead
  omega

/-! ## Moored chains -/

/-- The MPDU `sub` numbered `sn` is held and releasing what is behind it
    leaves the window past `sn`, or `sub` is gone and the window past. -/
inductive Moored (sn : ℕ) (sub : NodeRef) (last : ℕ) (rows : List Row) : Prop
  | held {before after : List Row} {r : Row} :
      rows = before ++ r :: after → r.mpdu.ref = sub → r.sn = sn →
        (∀ b ∈ after, ¬Astray sn b.sn) → Moored sn sub last rows
  | gone : last < 4096 → ¬Astray sn last → (∀ b ∈ rows, ¬Astray sn b.sn) →
      Moored sn sub last rows

section split

variable {before after : List Row} {r : Row}

/-- Dropping rows off the front leaves a row in place, or takes it too. -/
theorem dropWhile_split (p : Row → Bool) :
    (∃ before', (before ++ r :: after).dropWhile p = before' ++ r :: after) ∨
      (p r = true ∧ (before ++ r :: after).dropWhile p = after.dropWhile p) := by
  induction before with
  | nil =>
    by_cases hr : p r = true
    · exact .inr ⟨hr, List.dropWhile_cons_of_pos hr⟩
    · exact .inl ⟨[], List.dropWhile_cons_of_neg hr⟩
  | cons b before ih =>
    by_cases hb : p b = true
    · rw [List.cons_append, List.dropWhile_cons_of_pos hb]
      exact ih
    · exact .inl ⟨b :: before, List.dropWhile_cons_of_neg hb⟩

/-- A scan stops in front of a row, or takes it and goes on behind it. -/
theorem run_split (seq : ℕ) :
    (∃ before', runRest seq (before ++ r :: after) = before' ++ r :: after) ∨
      (runRest seq (before ++ r :: after) = runRest r.sn after ∧
        runEnd seq (before ++ r :: after) = runEnd r.sn after) := by
  induction before generalizing seq with
  | nil =>
    by_cases hr : r.sn = (seq + 1) % 4096
    · right
      constructor
      · rw [List.nil_append, runRest, if_pos hr]
      · rw [List.nil_append, runEnd, if_pos hr]
    · left
      refine ⟨[], ?_⟩
      rw [List.nil_append, runRest, if_neg hr]
  | cons b before ih =>
    rw [List.cons_append, runRest, runEnd]
    by_cases hb : b.sn = (seq + 1) % 4096
    · rw [if_pos hb, if_pos hb]
      exact ih b.sn
    · left
      refine ⟨b :: before, ?_⟩
      rw [if_neg hb]
      rfl

theorem runRest_suffix (seq : ℕ) (rows : List Row) : runRest seq rows <:+ rows :=
  ⟨runOf seq rows, runOf_append_runRest seq rows⟩

end split

section moored

variable {sn last seq : ℕ} {sub : NodeRef} {rows : List Row} {v : View} {k : BaKey}

/-- A scan over rows that do not lead astray ends where the window is past. -/
theorem Moored.of_run (hseq : seq < 4096) (hnot : ¬Astray sn seq)
    (hsns : ∀ r ∈ rows, r.sn < 4096) (hrows : ∀ b ∈ rows, ¬Astray sn b.sn) :
    Moored sn sub (runEnd seq rows) (runRest seq rows) := by
  have hrest : ∀ b ∈ runRest seq rows, ¬Astray sn b.sn := fun b hb =>
    hrows b ((runRest_suffix seq rows).subset hb)
  rcases runEnd_cases seq rows with heq | ⟨r, hr, heq⟩
  · rw [heq]
    exact .gone hseq hnot hrest
  · rw [heq]
    exact .gone (hsns r hr) (hrows r hr) hrest

/-- Releases keep a chain moored. -/
theorem Moored.advance (h : Moored sn sub v.last v.rows) (hseq : seq < 4096)
    (hsns : ∀ r ∈ v.rows, r.sn < 4096)
    (hgone : v.last < 4096 → ¬Astray sn v.last → (∀ b ∈ v.rows, ¬Astray sn b.sn) →
      ¬Astray sn seq) :
    Moored sn sub (v.advance k seq).view.last (v.advance k seq).view.rows := by
  show Moored sn sub (runEnd seq (v.rows.dropWhile fun r => ¬pastSeq r.sn seq))
    (runRest seq (v.rows.dropWhile fun r => ¬pastSeq r.sn seq))
  have hdrop : ∀ b ∈ v.rows.dropWhile fun r => ¬pastSeq r.sn seq, b ∈ v.rows := fun b hb =>
    (List.dropWhile_suffix _).subset hb
  cases h with
  | gone hlast hnot hrows =>
    exact .of_run hseq (hgone hlast hnot hrows) (fun r hr => hsns r (hdrop r hr))
      fun b hb => hrows b (hdrop b hb)
  | @held before after r hrows href hsn hafter =>
    have hmem : ∀ b ∈ after, b ∈ v.rows := by
      intro b hb
      rw [hrows]
      exact List.mem_append_right _ (List.mem_cons_of_mem _ hb)
    have hlt : r.sn < 4096 := hsns r (by rw [hrows]; simp)
    rw [hrows]
    rcases dropWhile_split (fun r => decide ¬pastSeq r.sn seq) with ⟨before', heq⟩ | ⟨hr, heq⟩
    · -- the row is still there for the scan
      rw [heq]
      rcases run_split seq with ⟨before'', heq'⟩ | ⟨hrest, hend⟩
      · rw [heq']
        exact .held rfl href hsn hafter
      · rw [hrest, hend]
        exact .of_run hlt (hsn ▸ not_astray_self _) (fun b hb => hsns b (hmem b hb)) hafter
    · rw [heq]
      have hnot : ¬Astray sn seq := by
        rw [← hsn]
        exact not_astray_of_released (by simpa using hr)
      have hsub : ∀ b ∈ after.dropWhile fun r => ¬pastSeq r.sn seq, b ∈ after := fun b hb =>
        (List.dropWhile_suffix _).subset hb
      exact .of_run hseq hnot (fun b hb => hsns b (hmem b (hsub b hb)))
        fun b hb => hafter b (hsub b hb)

end moored

/-! ## Entries -/

/-- An entry whose chain, if there is one, is moored: the A-MSDU of the
    last frame is open, and the chain is its. -/
structure View.Anchored (v : View) : Prop where
  sns : ∀ r ∈ v.rows, r.sn < 4096
  ref : v.ref < 4096
  chain : ∀ sub, v.chain = some sub → v.amsduOpen ∧ Moored v.ref sub v.last v.rows

section view

variable {v : View} {k : BaKey} {pn : KiteFrame}

theorem View.Anchored.unchained (hsns : ∀ r ∈ v.rows, r.sn < 4096) (href : v.ref < 4096)
    (hchain : v.chain = none) : v.Anchored := by
  refine ⟨hsns, href, fun sub hsub => ?_⟩
  rw [hchain] at hsub
  cases hsub

/-- Releases keep an entry anchored. -/
theorem View.Anchored.advance {seq : ℕ} (h : v.Anchored) (hseq : seq < 4096)
    (hgone : ∀ sub, v.chain = some sub → v.last < 4096 → ¬Astray v.ref v.last →
      (∀ b ∈ v.rows, ¬Astray v.ref b.sn) → ¬Astray v.ref seq) :
    (v.advance k seq).view.Anchored := by
  have hlets := lets_advance k seq v
  obtain ⟨gone, hrows, -⟩ := hlets.rows
  have hctl := hlets.ctl
  refine ⟨fun r hr => h.sns r ?_, ?_, fun sub hsub => ?_⟩
  · rw [← hrows]
    exact List.mem_append_right _ hr
  · rw [congrArg BaCtl.ref hctl]
    exact h.ref
  · rw [congrArg BaCtl.chain hctl] at hsub
    obtain ⟨hopen, hmoored⟩ := h.chain sub hsub
    refine ⟨?_, ?_⟩
    · unfold BaCtl.amsduOpen
      rw [congrArg BaCtl.amsdu hctl]
      exact hopen
    · rw [congrArg BaCtl.ref hctl]
      exact hmoored.advance hseq h.sns (hgone sub hsub)

theorem View.Anchored.timeout (h : v.Anchored) (now limit fuel : ℕ) :
    (View.timeout k now limit fuel v).view.Anchored := by
  induction fuel generalizing v with
  | zero => exact h
  | succ fuel ih =>
    unfold View.timeout
    split
    · exact h
    · next r rows hrows =>
      have hmem : r ∈ v.rows := by rw [hrows]; exact List.mem_cons_self
      split
      · exact ih (h.advance (h.sns r hmem) fun _ _ _ _ hall => hall r hmem)
      · exact h

/-- A slide is for a frame of the A-MSDU, whose number is not past. -/
theorem View.Anchored.slide (h : v.Anchored) (hsn : pn.sn < 4096)
    (hnumber : v.chain ≠ none → v.ref = pn.sn) (fuel : ℕ) :
    (View.slide k pn.sn fuel v).view.Anchored := by
  induction fuel generalizing v with
  | zero => exact h
  | succ fuel ih =>
    unfold View.slide
    split
    · next hnone =>
      have hadv : (v.advance k (slideTo pn.sn v.win)).view.Anchored := by
        refine h.advance (slideTo_lt _ _) fun sub hsub hlast hnot _ => ?_
        rw [hnumber (by rw [hsub]; simp)] at hnot
        exact absurd hnone (standing_not_astray hlast hsn hnot).1
      have hctl := (lets_advance k (slideTo pn.sn v.win) v).ctl
      refine ih (v := (v.slideOnce k pn.sn).view) ⟨hadv.sns, hadv.ref, hadv.chain⟩ ?_
      intro hchain
      show (v.advance k (slideTo pn.sn v.win)).view.ref = pn.sn
      rw [congrArg BaCtl.ref hctl]
      refine hnumber fun hnil => hchain ?_
      show (v.advance k (slideTo pn.sn v.win)).view.chain = none
      rw [congrArg BaCtl.chain hctl]
      exact hnil
    · exact h

/-- Where a chain is wanted, its row is held under the frame's number. -/
theorem View.Anchored.inside (h : v.Anchored) (hsn : pn.sn < 4096) {sub : NodeRef}
    (hchain : v.chain = some sub) (hnumber : v.ref = pn.sn)
    (hst : v.standing pn.sn = some .inside) :
    ∃ before r after, v.rows = before ++ r :: after ∧ r.mpdu.ref = sub ∧ r.sn = pn.sn ∧
      ∀ b ∈ after, ¬Astray pn.sn b.sn := by
  obtain ⟨-, hmoored⟩ := h.chain sub hchain
  rw [hnumber] at hmoored
  cases hmoored with
  | held hrows href hr hafter => exact ⟨_, _, _, hrows, href, hr, hafter⟩
  | gone hlast hnot hrows => exact absurd hst (standing_not_astray hlast hsn hnot).2

/-! ## Taking a frame -/

/-- The first numbers from the frame's on do not lead astray: the guard of
    a frame that may start a chain. -/
def View.Clear (v : View) (pn : KiteFrame) : Prop :=
  2 ≤ pn.amsdu → ∀ b ∈ v.after pn.sn, ¬Astray pn.sn b.sn

/-- The words a frame leaves, chained as before or not at all. -/
theorem View.Anchored.seen {w : View} {flag : ℕ} (h : v.Anchored) (hsn : pn.sn < 4096)
    (hcode : pn.amsdu ≤ 3) (hnumber : v.chain ≠ none → v.ref = pn.sn) (hrows : w.rows = v.rows)
    (hctl : w.toBaCtl = { v.toBaCtl.seen pn flag with last := w.last })
    (hlast : w.last = v.last ∨ w.last = pn.sn ∨ pn.amsdu ≤ 1) : w.Anchored := by
  have href : w.ref = pn.sn := congrArg BaCtl.ref hctl
  have hamsdu : w.amsdu = pn.amsdu := congrArg BaCtl.amsdu hctl
  refine ⟨fun r hr => h.sns r (hrows ▸ hr), href ▸ hsn, fun sub hsub => ?_⟩
  have hchain : (if pn.amsdu ≤ 1 then none else v.chain) = some sub :=
    (congrArg BaCtl.chain hctl).symm.trans hsub
  split at hchain
  · cases hchain
  · next hmore =>
    obtain ⟨-, hmoored⟩ := h.chain sub hchain
    rw [hnumber (by rw [hchain]; simp)] at hmoored
    refine ⟨?_, ?_⟩
    · unfold BaCtl.amsduOpen
      rw [hamsdu]
      omega
    · rw [href, hrows]
      cases hmoored with
      | held hr hsub hsn' hafter => exact .held hr hsub hsn' hafter
      | gone hlt hnot hall =>
        rcases hlast with heq | heq | hle
        · rw [heq]
          exact .gone hlt hnot hall
        · rw [heq]
          exact .gone hsn (not_astray_self _) hall
        · omega

theorem View.Anchored.inOrder (h : v.Anchored) (hsn : pn.sn < 4096) (hcode : pn.amsdu ≤ 3)
    (hnumber : v.chain ≠ none → v.ref = pn.sn) : (v.inOrder k pn).view.Anchored := by
  by_cases hle : pn.amsdu ≤ 1
  · refine .unchained ?_ hsn ?_
    · intro r hr
      unfold View.inOrder at hr
      rw [if_pos hle] at hr
      exact h.sns r ((runRest_suffix pn.sn v.rows).subset hr)
    · unfold View.inOrder View.setCtl BaCtl.seen
      simp only [if_pos hle]
  · have hview : (v.inOrder k pn).view = v.setCtl (v.seen pn 0) := by
      unfold View.inOrder
      rw [if_neg hle]
    rw [hview]
    exact h.seen hsn hcode hnumber rfl rfl (.inl rfl)

/-- The next MSDU joins the row its chain names. -/
theorem View.Anchored.chained {node sub : NodeRef} {tick : ℕ} (h : v.Anchored)
    (hsn : pn.sn < 4096) (hcode : pn.amsdu ≤ 3) (hnumber : v.ref = pn.sn)
    (hst : v.standing pn.sn = some .inside) (hnodup : v.refs.Nodup)
    (hchain : v.chain = some sub) : (View.hold (some node) pn tick v).view.Anchored := by
  obtain ⟨before, r, after, hrows, rfl, hr, hafter⟩ := h.inside hsn hchain hnumber hst
  unfold View.hold
  simp only [hchain, chainTo_eq hrows hnodup]
  set c : Cell := ⟨node, pn, tick⟩
  refine ⟨?_, hsn, fun sub hsub => ?_⟩
  · intro r' hr'
    have hcases : r' = r.more c ∨ r' ∈ v.rows := by
      have hmem : r' ∈ before ++ r.more c :: after := hr'
      rw [hrows]
      simp only [List.mem_append, List.mem_cons] at hmem ⊢
      tauto
    rcases hcases with rfl | hmem
    · show r.sn < 4096
      omega
    · exact h.sns r' hmem
  · have hsub' : (if pn.amsdu ≤ 1 then none else v.chain) = some sub := hsub
    rw [hchain] at hsub'
    split at hsub'
    · cases hsub'
    · next hmore =>
      obtain rfl := Option.some.inj hsub'
      refine ⟨?_, .held (r := r.more c) rfl rfl hr hafter⟩
      unfold BaCtl.amsduOpen
      show (pn.amsdu + 254) % 256 ≤ 1
      omega

/-- A frame finds its place among the rows, or its number is there. -/
theorem View.Anchored.inserted {node : NodeRef} {tick : ℕ} (h : v.Anchored)
    (hsn : pn.sn < 4096) (hcode : pn.amsdu ≤ 3) (hchain : v.chain = none) (hclear : v.Clear pn) :
    (View.hold (some node) pn tick v).view.Anchored := by
  unfold View.hold
  simp only [hchain]
  unfold View.insert
  simp only
  split
  · refine .unchained h.sns hsn ?_
    show (if pn.amsdu ≤ 1 then none else v.chain) = none
    rw [hchain]
    split <;> rfl
  · have hsplit : v.rows = v.before pn.sn ++ v.after pn.sn :=
      List.takeWhile_append_dropWhile.symm
    set c : Cell := ⟨node, pn, tick⟩
    refine ⟨?_, hsn, fun sub hsub => ?_⟩
    · intro r hr
      have hcases : r = ⟨c, []⟩ ∨ r ∈ v.rows := by
        have hmem : r ∈ v.before pn.sn ++ ⟨c, []⟩ :: v.after pn.sn := hr
        rw [hsplit]
        simp only [List.mem_append, List.mem_cons] at hmem ⊢
        tauto
      rcases hcases with rfl | hmem
      · exact hsn
      · exact h.sns r hmem
    · have hsub' : (if pn.amsdu ≤ 1 then none else
          if pn.amsdu ≤ 1 then none else some node) = some sub := hsub
      split at hsub'
      · cases hsub'
      · next hmore =>
        obtain rfl := Option.some.inj hsub'
        refine ⟨?_, .held (r := ⟨c, []⟩) rfl rfl rfl (hclear (by omega))⟩
        unfold BaCtl.amsduOpen
        show (pn.amsdu + 254) % 256 ≤ 1
        omega

/-- Whatever branch takes the frame keeps the entry anchored. -/
theorem View.Anchored.take {flags : RxFlags} {fresh : Option NodeRef} {band : ℕ} {st : Standing}
    (h : v.Anchored) (hsn : pn.sn < 4096) (hcode : pn.amsdu ≤ 3)
    (hnumber : v.chain ≠ none → v.ref = pn.sn) (hst : v.standing pn.sn = some st)
    (hnodup : v.refs.Nodup) (hclear : v.chain = none → v.Clear pn) :
    (View.take k flags fresh pn band st v).view.Anchored := by
  cases st with
  | duplicate => exact h.seen hsn hcode hnumber rfl rfl (.inl rfl)
  | behind =>
    show (v.behind k flags.fast pn band).view.Anchored
    unfold View.behind
    split
    · exact h.seen hsn hcode hnumber rfl rfl (.inr (.inl rfl))
    · exact h.seen hsn hcode hnumber rfl rfl (.inl rfl)
  | inOrder => exact h.inOrder hsn hcode hnumber
  | inside =>
    show (View.hold fresh pn flags.tick v).view.Anchored
    cases fresh with
    | none => exact h
    | some node =>
      cases hchain : v.chain with
      | some sub =>
        exact h.chained hsn hcode (hnumber (by rw [hchain]; simp)) hst hnodup hchain
      | none => exact h.inserted hsn hcode hchain (hclear hchain)

/-! ## The way to the branches -/

theorem View.Anchored.stateUpdate (h : v.Anchored) (sn checkType : ℕ) :
    (v.stateUpdate k sn checkType).view.Anchored ∧
      ((v.stateUpdate k sn checkType).view.chain ≠ none →
        (v.stateUpdate k sn checkType).view.ref = sn ∧ checkType ≠ 3) ∧
      (v.stateUpdate k sn checkType).view.rows <:+ v.rows ∧
      ((v.stateUpdate k sn checkType).view.chain = none →
        v.chain = none ∨ v.ref ≠ sn ∨ checkType = 3) := by
  unfold View.stateUpdate
  by_cases hset : v.settled sn checkType
  · rw [if_pos hset]
    refine ⟨h, fun hchain => ?_, List.suffix_refl _, .inl⟩
    obtain ⟨sub, hsub⟩ := Option.ne_none_iff_exists'.mp hchain
    obtain ⟨hopen, -⟩ := h.chain sub hsub
    unfold BaCtl.amsduOpen at hopen
    unfold BaCtl.settled at hset
    simp only at hset
    split at hset
    · next href => exact ⟨href, by omega⟩
    · omega
  · have hopen : v.ref ≠ sn ∨ checkType = 3 := by
      by_contra hnot
      obtain ⟨href, htype⟩ := not_or.mp hnot
      refine hset ?_
      unfold BaCtl.settled
      simp only
      rw [if_pos (not_not.mp href)]
      exact .inr htype
    rw [if_neg hset]
    split
    · exact ⟨.unchained h.sns h.ref rfl, fun hchain => absurd rfl hchain, List.suffix_refl _,
        fun _ => .inr hopen⟩
    · refine ⟨.unchained (fun r hr => h.sns r ?_) h.ref rfl, fun hchain => absurd rfl hchain,
        runRest_suffix _ _, fun _ => .inr hopen⟩
      exact (runRest_suffix v.ref v.rows).subset hr

/-- The entry in front of the branches. -/
structure Arrived (v w : View) (pn : KiteFrame) : Prop where
  anchored : w.Anchored
  number : w.chain ≠ none → w.ref = pn.sn
  rows : v.state ≠ 3 → w.rows <:+ v.rows
  opened : v.state = 3 → w.rows = []
  unchained : w.chain = none → v.state ≠ 3 → v.chain = none ∨ v.ref ≠ pn.sn ∨ pn.amsdu = 3

theorem View.Anchored.arrive (h : v.Anchored) (hsn : pn.sn < 4096) (band : ℕ) :
    Arrived v (v.arrive k pn band).view pn := by
  set v2 : View := { (if v.state = 3 then v.openWindow k pn else ⟨v, []⟩ : Move).view with
    band := band } with hv2
  have h2 : v2.Anchored := by
    by_cases hstate : v.state = 3
    · rw [hv2, if_pos hstate]
      exact .unchained nofun hsn rfl
    · rw [hv2, if_neg hstate]
      exact ⟨h.sns, h.ref, h.chain⟩
  obtain ⟨h3, hnumber, hsuffix, hkept⟩ := h2.stateUpdate (k := k) pn.sn pn.amsdu
  set v3 := (v2.stateUpdate k pn.sn pn.amsdu).view with hv3
  have hslide := lets_slide k pn.sn nodeFuel v3
  obtain ⟨gone, hgone, -⟩ := hslide.rows
  have hchain : (View.slide k pn.sn nodeFuel v3).view.chain = v3.chain := by
    rw [hslide.ctl]
  have hrows : (View.slide k pn.sn nodeFuel v3).view.rows <:+ v2.rows :=
    List.IsSuffix.trans ⟨gone, hgone⟩ hsuffix
  refine ⟨h3.slide hsn (fun hne => (hnumber hne).1) nodeFuel, ?_, ?_, ?_, ?_⟩
  · intro hne
    have hne' : v3.chain ≠ none := hchain ▸ hne
    exact (congrArg BaCtl.ref hslide.ctl).trans (hnumber hne').1
  · intro hstate
    have hsame : v2.rows = v.rows := by rw [hv2, if_neg hstate]
    exact hsame ▸ hrows
  · intro hstate
    have hnil : v2.rows = [] := by
      rw [hv2, if_pos hstate]
      rfl
    rw [hnil] at hrows
    exact List.suffix_nil.mp hrows
  · intro hnone hstate
    have hsame : v2.toBaCtl = { v.toBaCtl with band := band } := by rw [hv2, if_neg hstate]
    rcases hkept (hchain.symm.trans hnone) with heq | hne | hcode
    · exact .inl ((congrArg BaCtl.chain hsame).symm.trans heq)
    · exact .inr (.inl fun heq => hne ((congrArg BaCtl.ref hsame).trans heq))
    · exact .inr (.inr hcode)

end view

/-! ## On the heap -/

section rep

variable {s : BaState} {h : HeldState} {hand : Multiset NodeRef} {k : BaKey} {pn : KiteFrame}

theorem HeldState.app_set {m : Move} {f : View → Move} :
    (h.set k m).app k f = h.set k (m.andThen f) := by
  unfold HeldState.app
  rw [HeldState.set_view_self, HeldState.set_set]
  rfl

theorem Rep.openWindow (hrep : Rep s h hand) :
    Rep (kiteOpenWindow s k pn) (h.app k (View.openWindow k pn)) hand := by
  have hflush := hrep.flush k
  have hend := hflush.setCtl k { ((h.app k (View.flush k)).view k).toBaCtl with
    last := (((pn.sn : ℤ) - 1) % 4096).toNat
    ref := pn.sn
    state := 4
    amsdu := pn.amsdu }
  unfold kiteOpenWindow
  simp only
  rw [(hflush.entry k).ctl]
  unfold HeldState.app at hend ⊢
  simp only [HeldState.set_view_self, HeldState.set_set] at hend ⊢
  exact hend

/-- The heap and the view agree in front of the branches. -/
theorem Rep.arrive (hrep : Rep s h hand) (pn : KiteFrame) (band : ℕ) :
    Rep (kiteArrival s k pn band).1 (h.app k (View.arrive k pn band)) hand ∧
      ((h.view k).arrive k pn band).view.standing pn.sn = some (kiteArrival s k pn band).2 := by
  have hstate : (s.entry k).state = (h.view k).state := congrArg BaCtl.state (hrep.entry k).ctl
  set m : Move := if (h.view k).state = 3 then (h.view k).openWindow k pn else ⟨h.view k, []⟩
    with hm
  have hopen : Rep (if (s.entry k).state = 3 then kiteOpenWindow s k pn else s) (h.set k m) hand := by
    rw [hm, hstate]
    split
    · exact hrep.openWindow
    · rw [HeldState.set_same]
      exact hrep
  set t := if (s.entry k).state = 3 then kiteOpenWindow s k pn else s with ht
  have hband := hopen.setCtl k { ((h.set k m).view k).toBaCtl with band := band }
  rw [← (hopen.entry k).ctl] at hband
  have hupdate := hband.stateUpdate k pn.sn pn.amsdu
  have hslide := hupdate.slide (k := k) pn.sn nodeFuel (.inl (by
    have := hupdate.length_rows_lt k
    have hle := hupdate.card_le k
    have hrows := View.length_rows_le ((((h.set k m).set k ⟨((h.set k m).view k).setCtl
      { (t.entry k).toBaCtl with band := band }, []⟩).app k
        (View.stateUpdate k pn.sn pn.amsdu)).view k)
    unfold nodeFuel
    omega))
  obtain ⟨hrepslide, hstanding⟩ := hslide
  rw [HeldState.set_set, HeldState.app_set, HeldState.app_set, HeldState.set_view_self]
    at hrepslide hstanding
  rw [(hopen.entry k).ctl, HeldState.set_view_self] at hrepslide hstanding
  have hview : h.app k (View.arrive k pn band) = h.set k (((⟨m.view.setCtl
      { m.view.toBaCtl with band := band }, m.outs ++ []⟩ : Move).andThen
        (View.stateUpdate k pn.sn pn.amsdu)).andThen (View.slide k pn.sn nodeFuel)) := rfl
  have harrival : kiteArrival s k pn band = kiteSlide k pn.sn nodeFuel (baStateUpdate
      (t.setCtl k { (t.entry k).toBaCtl with band := band }) k pn.sn pn.amsdu) := rfl
  rw [hview, harrival, (hopen.entry k).ctl, HeldState.set_view_self]
  exact ⟨hrepslide, hstanding⟩

end rep

end ClankerNPU.Kite
