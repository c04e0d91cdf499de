import ClankerNPU.StaQ.Spacing

/-! # The rate memory

    A station that comes back into the dropping state soon after leaving
    it takes up the drop rate it had. The code remembers the count of the
    last entry in 8 bits, and compares times and sixteen intervals as
    signed 32-bit numbers. -/

namespace ClankerNPU.StaQ

/-- What a return should resume at: the drops of the last dropping state,
    for sixteen intervals after its deadline. -/
def Resume.right (interval : ℕ) (r : Resume) : ℕ :=
  if 1 < r.count - r.entry ∧ (r.time : ℤ) < r.deadline + 16 * interval then r.count - r.entry else 1

/-- The return resumes there, and at 1 when the station stayed out for 17
    intervals. -/
def Resume.Ok (interval : ℕ) (r : Resume) : Prop :=
  r.resumed = r.right interval ∧ (r.left + 17 * interval ≤ r.time → r.resumed = 1)

/-- The call is one that enters the dropping state. -/
def StaQCfg.Entering (c : StaQCfg) (a : StaQAqm) (call : Call) : Prop :=
  ¬(c.limit ≠ 0 ∧ c.limit ≤ (s16 call.counts).toNat) ∧
    (staQAbove c call.probe (s16 call.counts).toNat call.now).1 = true ∧ a.flagAbove = true ∧
    0 ≤ s32 ((call.now : ℤ) - a.above) ∧ c.small < call.len ∧ a.flagDropping = false

instance (c : StaQCfg) (a : StaQAqm) (call : Call) : Decidable (c.Entering a call) :=
  inferInstanceAs (Decidable (_ ∧ _))

/-- Sixteen intervals after the deadline, as signed 32-bit numbers say. -/
def soon (interval time : ℕ) (deadline : ℤ) : Prop :=
  s32 (time - deadline) < s32 (u32 (16 * interval))

instance (interval time : ℕ) (deadline : ℤ) : Decidable (soon interval time deadline) :=
  inferInstanceAs (Decidable (_ < _))

/-- The comparison comes out as in real time when there is a rate to take
    up, and no rate is taken up from an entry above 255. -/
def Remembers (interval count entry time : ℕ) (deadline : ℤ) : Prop :=
  (1 < count - entry → (soon interval time deadline ↔ (time : ℤ) < deadline + 16 * interval)) ∧
    (255 < entry → 256 < count → ¬soon interval time deadline)

instance (interval count entry time : ℕ) (deadline : ℤ) :
    Decidable (Remembers interval count entry time deadline) :=
  inferInstanceAs (Decidable (_ ∧ _))

/-- A call that enters the dropping state again remembers the last one. -/
def ResumesRight (c : StaQCfg) (s : DropLog) (call : Call) : Prop :=
  c.Entering (s.base.aqm call.sender) call → ∀ first ∈ (s.log call.sender).drops.head?,
    Remembers c.interval (s.base.aqm call.sender).count first.count call.time
      (s.log call.sender).deadline

instance (c : StaQCfg) (s : DropLog) (call : Call) : Decidable (ResumesRight c s call) :=
  inferInstanceAs (Decidable (_ → _))

/-! ## One return -/

section One

variable {c : StaQCfg} {a a' : StaQAqm} {e : Episode} {calls : List Record} {call : Call}
  {interval count entry time : ℕ} {deadline : ℤ}

/-- The count with the 8-bit memory is the right one exactly when the
    condition holds. -/
theorem remembers_iff (hle : entry ≤ count) (hcount : count ≤ 65535) :
    (if 1 < u16 ((count : ℤ) - (min entry 255 : ℕ)) ∧ soon interval time deadline then
        u16 ((count : ℤ) - (min entry 255 : ℕ)) else 1)
      = (if 1 < count - entry ∧ (time : ℤ) < deadline + 16 * interval then count - entry else 1) ↔
      Remembers interval count entry time deadline := by
  have hn : u16 ((count : ℤ) - (min entry 255 : ℕ)) = count - min entry 255 := by
    unfold u16
    omega
  rw [hn]
  unfold Remembers
  -- a first count up to 255 is kept as it is, a larger one as 255
  by_cases hsmall : entry ≤ 255
  · rw [Nat.min_eq_left hsmall]
    have hsat : 255 < entry → 256 < count → ¬soon interval time deadline := by omega
    by_cases hone : 1 < count - entry
    · refine ⟨fun h => ⟨fun _ => ?_, hsat⟩, fun h => ?_⟩
      · split_ifs at h with hsoon hreal hreal
        · exact iff_of_true hsoon.2 hreal.2
        · omega
        · omega
        · exact iff_of_false (fun h => hsoon ⟨hone, h⟩) (fun h => hreal ⟨hone, h⟩)
      · simp only [hone, true_and, h.1 hone]
    · rw [if_neg (hone ·.1), if_neg (hone ·.1)]
      exact ⟨fun _ => ⟨fun h => absurd h hone, hsat⟩, fun _ => rfl⟩
  · rw [Nat.min_eq_right (by omega)]
    by_cases hone : count = 256
    · -- the entry saturated in its own right: nothing to take up
      rw [if_neg (by omega), if_neg (by omega)]
      exact ⟨fun _ => ⟨by omega, by omega⟩, fun _ => rfl⟩
    · have hlow : 1 < count - 255 := by omega
      by_cases hsoon : soon interval time deadline
      · rw [if_pos ⟨hlow, hsoon⟩]
        refine ⟨fun h => ?_, fun h => absurd hsoon (h.2 (by omega) (by omega))⟩
        split_ifs at h <;> omega
      · rw [if_neg (hsoon ·.2)]
        by_cases hreal : 1 < count - entry ∧ (time : ℤ) < deadline + 16 * interval
        · rw [if_pos hreal]
          refine ⟨fun h => ?_, fun h => absurd ((h.1 hreal.1).mpr hreal.2) hsoon⟩
          have := hreal.1
          omega
        · rw [if_neg hreal]
          refine ⟨fun _ => ⟨fun h1 => ?_, fun _ _ => hsoon⟩, fun _ => rfl⟩
          exact ⟨fun h => absurd h hsoon, fun h => absurd ⟨h1, h⟩ hreal⟩

/-- A call enters the dropping state exactly where the inputs say. -/
theorem enters_iff (c : StaQCfg) (a : StaQAqm) (call : Call) :
    ((staQDecide c a call.probe call.counts call.now call.len).verdict = .aqmDrop ∧
      a.flagDropping = false) ↔ c.Entering a call := by
  unfold staQDecide StaQCfg.Entering
  dsimp only
  by_cases hlimit : c.limit ≠ 0 ∧ c.limit ≤ (s16 call.counts).toNat
  · rw [if_pos hlimit]
    exact ⟨fun h => (nomatch h.1), fun h => absurd hlimit h.1⟩
  rw [if_neg hlimit]
  cases habove : (staQAbove c call.probe (s16 call.counts).toNat call.now).1 with
  | false =>
    rw [if_pos (show (!false) = true from rfl)]
    exact ⟨fun h => (nomatch h.1), fun h => (nomatch h.2.1)⟩
  | true =>
    rw [if_neg (show ¬(!true) = true from nofun)]
    have hstanding := staQStanding_cases c a call.now call.len
    generalize staQStanding c a call.now call.len = t at hstanding ⊢
    cases hstanding with
    | starts fresh =>
      refine ⟨fun h => (nomatch h.1), fun h => ?_⟩
      have hflag := h.2.2.1
      rw [fresh] at hflag
      cases hflag
    | waits _ early =>
      refine ⟨fun h => (nomatch h.1), fun ⟨_, _, _, late, large, out⟩ => ?_⟩
      rcases early with hearly | hsmall | ⟨hdrop, _⟩
      · exact absurd late (not_le.mpr hearly)
      · exact absurd large (not_lt.mpr hsmall)
      · rw [out] at hdrop
        cases hdrop
    | again _ _ _ dropping _ =>
      rw [dropping]
      exact ⟨fun h => (nomatch h.2), fun h => (nomatch h.2.2.2.2.2)⟩
    | enters above late large out =>
      exact ⟨fun _ => ⟨hlimit, rfl, above, late, large, out⟩, fun _ => ⟨rfl, out⟩⟩

/-- What an entry resumes at, in terms of the log. -/
theorem Enters.resumed (h : EpisodeInv c a e calls) {t : ℕ} (hen : Enters c a (t % 2 ^ 32) a')
    {first : Drop} (hfirst : first ∈ e.drops.head?) :
    a'.count = if 1 < u16 ((a.count : ℤ) - (min first.count 255 : ℕ)) ∧
      soon c.interval t e.deadline then u16 ((a.count : ℤ) - (min first.count 255 : ℕ)) else 1 := by
  have hne : e.drops ≠ [] := by
    intro hnil
    rw [hnil] at hfirst
    cases hfirst
  have hclock : s32 (((t % 2 ^ 32 : ℕ) : ℤ) - a.next) = s32 (t - e.deadline) := by
    have hnext := h.next hne
    unfold s32
    omega
  rw [hen.count, (h.entry first hfirst).1, hclock]
  rfl

/-- A return within 17 intervals of leaving, when it is the right one. -/
theorem Resume.ok_iff {r : Resume} {interval : ℕ} (h : r.deadline ≤ r.left + interval) :
    r.Ok interval ↔ r.resumed = r.right interval := by
  refine ⟨fun hok => hok.1, fun hright => ⟨hright, fun hlong => ?_⟩⟩
  rw [hright, Resume.right, if_neg]
  rintro ⟨_, hsoon⟩
  omega

end One

/-! ## Every sequence of calls -/

section Runs

variable {c : StaQCfg} {s : DropLog} {call : Call} {σ : Sender}

/-- The returns after a call. -/
theorem resumes_after (c : StaQCfg) (s : DropLog) (call : Call) :
    ((s.after c call).log call.sender).resumes = (s.log call.sender).resumes ∧
        (c.Entering (s.base.aqm call.sender) call → (s.log call.sender).drops = []) ∨
      c.Entering (s.base.aqm call.sender) call ∧ ∃ first ∈ (s.log call.sender).drops.head?,
        ((s.after c call).log call.sender).resumes = (s.log call.sender).resumes ++
          [⟨call.time, (s.base.decision c call).aqm.count, (s.base.aqm call.sender).count,
            first.count, (s.log call.sender).deadline, (s.log call.sender).left⟩] := by
  have hlog : (s.after c call).log call.sender = (s.log call.sender).after
      (s.base.aqm call.sender) (s.base.decision c call).aqm (s.base.decision c call).verdict
      call.time := Function.update_self ..
  rw [hlog]
  have henters := enters_iff c (s.base.aqm call.sender) call
  change ((s.base.decision c call).verdict = .aqmDrop ∧ _) ↔ _ at henters
  unfold Episode.after
  -- a return is logged where a drop finds the state left and drops before
  by_cases hv : (s.base.decision c call).verdict = .aqmDrop
  · rw [if_pos hv]
    unfold Episode.resumesAfter
    cases hflag : (s.base.aqm call.sender).flagDropping with
    | true =>
      left
      refine ⟨rfl, fun hent => ?_⟩
      rw [(henters.mpr hent).2] at hflag
      cases hflag
    | false =>
      cases hdrops : (s.log call.sender).drops with
      | nil => exact .inl ⟨rfl, fun _ => rfl⟩
      | cons first rest => exact .inr ⟨henters.mp ⟨hv, hflag⟩, first, rfl, rfl⟩
  · left
    rw [if_neg hv]
    refine ⟨?_, fun hent => absurd (henters.mpr hent).1 hv⟩
    split_ifs <;> rfl

/-- What a return resumes at is right exactly when the call remembers. -/
theorem resume_ok_iff (h : DropInv c s) (hent : c.Entering (s.base.aqm call.sender) call)
    {first : Drop} (hfirst : first ∈ (s.log call.sender).drops.head?) :
    Resume.Ok c.interval ⟨call.time, (s.base.decision c call).aqm.count,
        (s.base.aqm call.sender).count, first.count, (s.log call.sender).deadline,
        (s.log call.sender).left⟩ ↔
      Remembers c.interval (s.base.aqm call.sender).count first.count call.time
        (s.log call.sender).deadline := by
  have hinv := h call.sender
  have hne : (s.log call.sender).drops ≠ [] := by
    intro hnil
    rw [hnil] at hfirst
    cases hfirst
  obtain ⟨hv, hout⟩ := (enters_iff c (s.base.aqm call.sender) call).mpr hent
  have hen : Enters c (s.base.aqm call.sender) (call.time % 2 ^ 32)
      (s.base.decision c call).aqm := by
    rcases staQDecide_drops c (s.base.aqm call.sender) call.probe call.counts call.now call.len
      with ⟨hno, _⟩ | ⟨_, hen⟩ | ⟨_, hag⟩
    · exact absurd hv hno
    · exact hen
    · rw [hag.before] at hout
      cases hout
  rw [Resume.ok_iff (hinv.out hout hne)]
  change (s.base.decision c call).aqm.count = _ ↔ _
  rw [hen.resumed hinv hfirst]
  exact remembers_iff (hinv.entry first hfirst).2 (hinv.count hne).2.1

/-- The return a call makes is right exactly when the call meets the
    condition. -/
theorem call_resumes_iff (h : DropInv c s) :
    (∀ r, ((s.after c call).log call.sender).resumes = (s.log call.sender).resumes ++ [r] →
      r.Ok c.interval) ↔ ResumesRight c s call := by
  rcases resumes_after c s call with ⟨hsame, hnone⟩ | ⟨hent, first, hfirst, hmore⟩
  · refine ⟨fun _ hent first hfirst => ?_, fun _ r hr => ?_⟩
    · rw [hnone hent] at hfirst
      cases hfirst
    · rw [hsame] at hr
      have hlen := congrArg List.length hr
      rw [List.length_append, List.length_singleton] at hlen
      omega
  · have hok := resume_ok_iff h hent hfirst
    refine ⟨fun hall _ f hf => ?_, fun hright r hr => ?_⟩
    · obtain rfl := Option.mem_unique hf hfirst
      exact hok.mp (hall _ hmore)
    · rw [hmore] at hr
      obtain rfl := (List.cons.inj (List.append_cancel_left hr)).1
      exact hok.mpr (hright hent first hfirst)

/-- The returns so far are right. -/
def Resumed (c : StaQCfg) (s : DropLog) : Prop :=
  DropInv c s ∧ ∀ σ, ∀ r ∈ (s.log σ).resumes, r.Ok c.interval

theorem resumed_step (hint : c.interval < 2 ^ 31) (h : Resumed c s)
    (htime : s.base.notBefore call) (hright : ResumesRight c s call) :
    Resumed c (s.after c call) := by
  refine ⟨dropInv_step hint h.1 htime, fun σ r hr => ?_⟩
  by_cases hσ : σ = call.sender
  · subst hσ
    rcases resumes_after c s call with ⟨hsame, _⟩ | ⟨_, first, _, hmore⟩
    · rw [hsame] at hr
      exact h.2 _ r hr
    · have hnew := (call_resumes_iff h.1).mpr hright _ hmore
      rw [hmore] at hr
      rcases List.mem_append.mp hr with hr | hr
      · exact h.2 _ r hr
      · rw [List.mem_singleton.mp hr]
        exact hnew
  · have hother : (s.after c call).log σ = s.log σ := Function.update_of_ne hσ _ _
    rw [hother] at hr
    exact h.2 σ r hr

/-- In every sequence of calls that meet the condition every return into
    the dropping state resumes at the right count; and a call makes a right
    one exactly when it meets the condition. -/
theorem resumes_right (c : StaQCfg) (hint : 1 ≤ c.interval ∧ c.interval < 2 ^ 31) :
    (∀ s, ((dropSystem c).guarded (ResumesRight c)).Reachable s →
      ∀ σ, ∀ r ∈ (s.log σ).resumes, r.Ok c.interval) ∧
    (∀ s call, (dropSystem c).Reachable s → s.base.notBefore call →
      ((∀ r, ((s.after c call).log call.sender).resumes =
          (s.log call.sender).resumes ++ [r] → r.Ok c.interval) ↔ ResumesRight c s call)) := by
  refine ⟨fun s h => ?_, fun s call h _ => ?_⟩
  · have hinit : ∀ s, ((dropSystem c).guarded (ResumesRight c)).init s → Resumed c s := by
      intro s h0
      refine ⟨dropInv_init h0, ?_⟩
      obtain rfl : s = noDrops := h0
      exact fun _ _ => nofun
    have hinv : Resumed c s := by
      refine h.invariant hinit ?_
      rintro s call s' hs ⟨hright, hstep⟩
      obtain ⟨htime, rfl⟩ := dropStep_eq hstep
      exact resumed_step hint.2 hs htime hright
    exact hinv.2
  · exact call_resumes_iff (dropInv_of_reachable hint.2 h)

end Runs

/-- The queue falls below target. -/
def draining (time : ℕ) : Call := ⟨.lan, time, 0, ⟨staQNone, 0⟩, 1500⟩

/-- Three drops, out, and back in within 16 intervals. -/
theorem resumes_right_soon :
    ∃ s, ((dropSystem tenFrames).guarded (ResumesRight tenFrames)).Reachable s ∧
      (∃ r ∈ (s.log .lan).resumes, r.time = 6100 ∧ r.resumed = 2) ∧
      ∀ r ∈ (s.log .lan).resumes, r.Ok tenFrames.interval := by
  have hrun : (StepSystem.run (dropStep tenFrames)
      (fun s call => decide (ResumesRight tenFrames s call)) noDrops
      [standing 0, standing 1000, standing 2000, standing 3000, draining 3001,
        standing 5000, standing 6100]).map (fun s => (s.log .lan).resumes) =
      some [⟨6100, 2, 3, 1, 4000, 3001⟩] := by
    decide +kernel
  obtain ⟨s, hs, hresumes⟩ := Option.map_eq_some_iff.mp hrun
  have hreach : ((dropSystem tenFrames).guarded (ResumesRight tenFrames)).Reachable s :=
    .of_run (fun _ _ _ hc hstep => ⟨of_decide_eq_true hc, hstep⟩) (.init rfl) hs
  refine ⟨s, hreach, ⟨⟨6100, 2, 3, 1, 4000, 3001⟩, ?_, rfl, rfl⟩,
    (resumes_right tenFrames (by decide)).1 s hreach .lan⟩
  rw [hresumes]
  exact List.mem_singleton.mpr rfl

/-- The same station, out for half a round of the clock: the signed
    difference is negative and it takes up its old rate. -/
theorem resumes_stale :
    ∃ s, (dropSystem tenFrames).Reachable s ∧ ∃ r ∈ (s.log .lan).resumes,
      r.left + 17 * tenFrames.interval ≤ r.time ∧ r.resumed = 2 ∧ ¬r.Ok tenFrames.interval := by
  have hrun : (StepSystem.run (dropStep tenFrames) (fun _ _ => true) noDrops
      [standing 0, standing 1000, standing 2000, standing 3000, draining 3001,
        standing (2 ^ 31 + 5000), standing (2 ^ 31 + 6000)]).map (fun s => (s.log .lan).resumes) =
      some [⟨2147489648, 2, 3, 1, 4000, 3001⟩] := by
    decide +kernel
  obtain ⟨s, hs, hresumes⟩ := Option.map_eq_some_iff.mp hrun
  have hreach : (dropSystem tenFrames).Reachable s :=
    .of_run (fun _ _ _ _ hstep => hstep) (.init rfl) hs
  refine ⟨s, hreach, ⟨2147489648, 2, 3, 1, 4000, 3001⟩, ?_, by decide, rfl, fun hok => ?_⟩
  · rw [hresumes]
    exact List.mem_singleton.mpr rfl
  · have hone := hok.2 (by decide)
    cases hone

end ClankerNPU.StaQ
