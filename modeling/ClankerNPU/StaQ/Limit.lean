import ClankerNPU.StaQ.Accounting
import ClankerNPU.StaQ.Gate

/-! # The hard limit

    For each station the hooks move the gate: every access of a hart is a
    move of the gate of one station at most, so each station's queue
    stays within the bound the gate has. -/

namespace ClankerNPU.StaQ

variable {b : QBuild} {s s' : Hooks} {h : Sender} {g : Stage} {tok tick sta x : ℕ} {f : Frame}

/-- The check of a station's limit a hart is in. -/
def Pc.looks (x : ℕ) : Pc → Option Look
  | .check sta own other done => if sta = x then some ⟨own, other, done⟩ else none
  | _ => none

/-- The hook has the frame past the check and not in the counters yet. -/
def Stage.due : Stage → Bool
  | .sentMap | .sentLoad | .sentStore _ => true
  | _ => false

/-- A frame of the station has passed the check and is not counted yet. -/
def Pc.passed (x : ℕ) : Pc → Bool
  | .clear sta | .delay sta _ | .stale sta => sta = x
  | .hook g _ f _ => g.due && f.sta = x
  | _ => false

theorem Pc.looks_check (x : ℕ) (own other done : Option ℕ) :
    (Pc.check x own other done).looks x = some ⟨own, other, done⟩ := if_pos rfl

theorem Pc.looks_check_of_ne (hne : sta ≠ x) (own other done : Option ℕ) :
    (Pc.check sta own other done).looks x = none := if_neg hne

theorem Pc.passed_clear (x : ℕ) : (Pc.clear x).passed x = true := decide_eq_true rfl

theorem Pc.passed_clear_of_ne (hne : sta ≠ x) : (Pc.clear sta).passed x = false :=
  decide_eq_false hne

/-- One hart's side of a station's gate. -/
def Hooks.hand (s : Hooks) (h : Sender) (x : ℕ) : Hand :=
  ⟨s.sent h x, (s.pc h).passed x, (s.pc h).looks x⟩

/-- The gate of a station. -/
def Hooks.gate (s : Hooks) (x : ℕ) : Gate := ⟨s.hand .lan x, s.hand .host x, s.done x⟩

/-- Stays or moves. -/
def Keeps (b : QBuild) (s s' : Hooks) (x : ℕ) : Prop :=
  s'.gate x = s.gate x ∨ Gate.Move b.clanker b.cfg.limit (s.gate x) (s'.gate x)

/-- What only one hart does is a move of its hand. -/
theorem keeps_of_hand (hpc : s'.pc h.other = s.pc h.other)
    (hsent : s'.sent h.other = s.sent h.other)
    (hdone : s'.done = s.done)
    (hm : s'.hand h x = s.hand h x ∨ (h = .host → b.clanker = true) ∧
      Hand.Move b.clanker b.cfg.limit (s.sent h.other x) (s.done x) (s.hand h x) (s'.hand h x)) :
    Keeps b s s' x := by
  have hother : s'.hand h.other x = s.hand h.other x := by
    unfold Hooks.hand
    rw [hpc, hsent]
  unfold Keeps Hooks.gate
  cases h with
  | lan =>
    change s'.hand .host x = _ at hother
    rw [hother, hdone]
    rcases hm with heq | ⟨-, hm⟩
    · rw [heq]
      exact .inl rfl
    · exact .inr (.lan hm)
  | host =>
    change s'.hand .lan x = _ at hother
    rw [hother, hdone]
    rcases hm with heq | ⟨htwo, hm⟩
    · rw [heq]
      exact .inl rfl
    · exact .inr (.host (htwo rfl) hm)

/-- A sender of host frames is there in the build with two senders only. -/
theorem Booked.two (hb : Booked b s) (hsend : (s.pc h).sending = true) :
    h = .host → b.clanker = true := by
  rintro rfl
  by_contra hcl
  rw [(hb.alone (by simpa using hcl)).2] at hsend
  exact Bool.noConfusion hsend

/-- The hart's place changes; what it has sent does not. -/
theorem keeps_of_place {p : Pc} (hpc : s'.pc = Function.update s.pc h p) (hsent : s'.sent = s.sent)
    (hdone : s'.done = s.done)
    (hm : (p.passed x = (s.pc h).passed x ∧ p.looks x = (s.pc h).looks x) ∨
      (h = .host → b.clanker = true) ∧ Hand.Move b.clanker b.cfg.limit (s.sent h.other x)
        (s.done x) ⟨s.sent h x, (s.pc h).passed x, (s.pc h).looks x⟩
        ⟨s.sent h x, p.passed x, p.looks x⟩) : Keeps b s s' x := by
  have hown : s'.pc h = p := by
    rw [hpc]
    exact Function.update_self _ _ _
  have hhand : s'.hand h x = ⟨s.sent h x, p.passed x, p.looks x⟩ := by
    unfold Hooks.hand
    rw [hown, hsent]
  apply keeps_of_hand _ (congrFun hsent _) hdone
  · rw [hhand]
    rcases hm with ⟨hpass, hlook⟩ | ⟨htwo, hmove⟩
    · left
      rw [hpass, hlook]
      rfl
    · exact .inr ⟨htwo, hmove⟩
  · rw [hpc]
    exact Function.update_of_ne h.other_ne _ _

/-- The hart is where neither a check nor a passed frame of the station
    is. -/
theorem keeps_of_away {p : Pc} (hpc : s'.pc = Function.update s.pc h p) (hsent : s'.sent = s.sent)
    (hdone : s'.done = s.done) (hold : (s.pc h).passed x = false ∧ (s.pc h).looks x = none)
    (hnew : p.passed x = false ∧ p.looks x = none) : Keeps b s s' x := by
  apply keeps_of_place hpc hsent hdone
  left
  rw [hold.1, hold.2]
  exact hnew

/-! ## Every step -/

theorem begin_keeps (hlim : b.cfg.limit ≠ 0) (hx : x < staQStas)
    (hs : beginStep b s h sta = some s') : Keeps b s s' x := by
  have hon : b.on = true := by
    unfold QBuild.on
    simp [hlim]
  unfold beginStep at hs
  by_cases hidle : s.pc h = .idle ∧ (h = .lan ∨ b.clanker = true)
  case neg =>
    rw [if_neg hidle] at hs
    cases hs
  rw [if_pos hidle] at hs
  by_cases htracked : b.on = true ∧ sta < staQStas
  · rw [if_pos htracked] at hs
    cases hs
    obtain ⟨hpc, hwho⟩ := hidle
    refine keeps_of_place rfl rfl rfl ?_
    rw [hpc]
    rcases eq_or_ne sta x with rfl | hne
    · right
      constructor
      · rintro rfl
        rcases hwho with hlan | hcl
        · exact Sender.noConfusion hlan
        · exact hcl
      · rw [Pc.looks_check]
        exact .begin
    · left
      exact ⟨rfl, Pc.looks_check_of_ne hne _ _ _⟩
  · -- with a limit set only stations that are not tracked go unchecked
    rw [if_neg htracked] at hs
    cases hs
    have hne : sta ≠ x := by
      rintro rfl
      exact htracked ⟨hon, hx⟩
    refine keeps_of_away rfl rfl rfl ?_ ?_
    · rw [hidle.1]
      exact ⟨rfl, rfl⟩
    · exact ⟨Pc.passed_clear_of_ne hne, rfl⟩

/-- One load more of a check. -/
theorem load_keeps {c : Counter} (hb : Booked b s) (hs : loadStep s h c = some s') :
    Keeps b s s' x := by
  unfold loadStep at hs
  split at hs
  case h_4 => cases hs
  all_goals
    next y _ _ hpc =>
      cases hs
      have htwo : h = .host → b.clanker = true := hb.two (by rw [hpc]; rfl)
      refine keeps_of_place rfl rfl rfl ?_
      rw [hpc]
      rcases eq_or_ne y x with rfl | hne
      · right
        refine ⟨htwo, ?_⟩
        rw [Pc.looks_check, Pc.looks_check]
        first
        | exact .loadOwn
        | exact .loadOther
        | exact .loadDone
      · left
        rw [Pc.looks_check_of_ne hne, Pc.looks_check_of_ne hne]
        exact ⟨rfl, rfl⟩

theorem decide_keeps (hb : Booked b s) (hlim : b.cfg.limit ≠ 0) (hs : decideStep b s h = some s') :
    Keeps b s s' x := by
  unfold decideStep at hs
  split at hs
  case h_2 => cases hs
  case h_1 y own other done hpc =>
    cases hs
    have htwo : h = .host → b.clanker = true := hb.two (by rw [hpc]; rfl)
    refine keeps_of_place rfl rfl rfl ?_
    rw [hpc]
    rcases eq_or_ne y x with rfl | hne
    · right
      refine ⟨htwo, ?_⟩
      rw [Pc.looks_check]
      split_ifs with hfull
      · exact .drop
      · rw [Pc.passed_clear]
        apply Hand.Move.pass
        by_contra hge
        exact hfull ⟨hlim, not_lt.1 hge⟩
    · left
      rw [Pc.looks_check_of_ne hne]
      split_ifs
      · exact ⟨rfl, rfl⟩
      · exact ⟨Pc.passed_clear_of_ne hne, rfl⟩

theorem giveUp_keeps (hb : Booked b s) (hs : giveUpStep s h = some s') : Keeps b s s' x := by
  unfold giveUpStep at hs
  split at hs
  case h_2 => cases hs
  case h_1 y hpc =>
    cases hs
    have htwo : h = .host → b.clanker = true := hb.two (by rw [hpc]; rfl)
    refine keeps_of_place rfl rfl rfl ?_
    rw [hpc]
    rcases eq_or_ne y x with rfl | hne
    · right
      refine ⟨htwo, ?_⟩
      rw [Pc.passed_clear]
      exact .giveUp
    · left
      exact ⟨(Pc.passed_clear_of_ne hne).symm, rfl⟩

theorem take_keeps {now : ℕ} (hx : x < staQStas) (hs : takeStep s h tok now = some s') :
    Keeps b s s' x := by
  unfold takeStep at hs
  split at hs
  case h_2 => cases hs
  case h_1 y hpc =>
    split_ifs at hs
    cases hs
    refine keeps_of_place rfl rfl rfl ?_
    rw [hpc]
    left
    refine ⟨?_, rfl⟩
    unfold Frame.firstStage
    split_ifs with hlt
    · rfl
    · -- a frame of no station is of no tracked one
      have hne : y ≠ x := by
        rintro rfl
        exact hlt hx
      exact (Pc.passed_clear_of_ne hne).symm

/-- A queue with a token in it is not empty. -/
theorem Booked.inside_pos (hb : Booked b s) (hpc : s.pc h = .hook g tok f tick)
    (hg : g.counted = true) (hlt : f.sta < staQStas) : 0 < u16 (s.net f.sta) := by
  have hheld := hb.holds _ _ _ _ _ hpc
  have hlabel := Hooks.counted_of_hook hpc (hb.other_token hpc) hheld.flight
  rw [Stage.label_of_lt hg hlt] at hlabel
  have hpos : 0 < s.inside f.sta := Tally.tally_pos (hb.pooled _ _ hheld.flight) hlabel
  have hcount := hb.count f.sta hlt
  have hcast := natCast_u16 (s.net f.sta)
  omega

/-- What a hart does to its own sent counter. -/
theorem keeps_of_sent {p : Pc} {n : ℕ} (hpc : s'.pc = Function.update s.pc h p)
    (hsent : s'.sent = (s.setSent h sta n).sent) (hdone : s'.done = s.done)
    (haway : x ≠ sta → p.passed x = (s.pc h).passed x) (hlook : p.looks x = (s.pc h).looks x)
    (hm : x = sta → (h = .host → b.clanker = true) ∧ Hand.Move b.clanker b.cfg.limit
      (s.sent h.other x) (s.done x) (s.hand h x) ⟨n, p.passed x, p.looks x⟩) : Keeps b s s' x := by
  have hown : s'.pc h = p := by
    rw [hpc]
    exact Function.update_self _ _ _
  have hval : s'.sent h = Function.update (s.sent h) sta n := by
    rw [hsent]
    exact Function.update_self _ _ _
  apply keeps_of_hand
  · rw [hpc]
    exact Function.update_of_ne h.other_ne _ _
  · rw [hsent]
    exact Function.update_of_ne h.other_ne _ _
  · exact hdone
  · unfold Hooks.hand at hm ⊢
    rw [hown, hval]
    rcases eq_or_ne x sta with rfl | hne
    · rw [Function.update_self]
      exact .inr (hm rfl)
    · rw [Function.update_of_ne hne, haway hne, hlook]
      exact .inl rfl

/-- A stage of a hook after which the same frames are passed. -/
theorem keeps_of_hook {p : Pc} (hpc : s.pc h = .hook g tok f tick)
    (hpc' : s'.pc = Function.update s.pc h p) (hsent : s'.sent = s.sent) (hdone : s'.done = s.done)
    (hpass : p.passed x = (Pc.hook g tok f tick).passed x) (hlook : p.looks x = none) :
    Keeps b s s' x := by
  apply keeps_of_place hpc' hsent hdone
  left
  rw [hpc]
  exact ⟨hpass, hlook⟩

theorem sentStore_keeps {n : ℕ} (hb : Booked b s)
    (hpc : s.pc h = .hook (.sentStore n) tok f tick) :
    Keeps b s ((s.setSent h f.sta (u16 (n + 1))).setPc h (.hook .armLoad tok f tick)) x := by
  obtain ⟨-, hn⟩ := (hb.holds _ _ _ _ _ hpc).fresh
  have htwo : h = .host → b.clanker = true := hb.two (by rw [hpc]; rfl)
  refine keeps_of_sent rfl rfl rfl ?_ ?_ ?_
  · intro hne
    rw [hpc]
    exact (decide_eq_false hne.symm).symm
  · rw [hpc]
    rfl
  · rintro rfl
    refine ⟨htwo, ?_⟩
    have hpass : (Pc.hook (.sentStore n) tok f tick).passed f.sta = true := decide_eq_true rfl
    unfold Hooks.hand
    rw [hpc, hpass, ← hn]
    exact .count

theorem unStore_keeps {n : ℕ} (hb : Booked b s)
    (hpc : s.pc h = .hook (.unStore n) tok f tick) :
    Keeps b s ((s.setSent h f.sta (u16 ((n : ℤ) - 1))).setPc h (.hook .unProbe tok f tick)) x := by
  obtain ⟨hlt, hn⟩ := (hb.holds _ _ _ _ _ hpc).fresh
  have htwo : h = .host → b.clanker = true := hb.two (by rw [hpc]; rfl)
  have hpos := hb.inside_pos hpc rfl hlt
  refine keeps_of_sent rfl rfl rfl ?_ ?_ ?_
  · intro _
    rw [hpc]
    rfl
  · rw [hpc]
    rfl
  · rintro rfl
    refine ⟨htwo, ?_⟩
    have hsum : s.net f.sta = (n : ℤ) + s.sent h.other f.sta - s.done f.sta := by
      unfold Hooks.net
      rw [hn]
      cases h with
      | lan => rfl
      | host =>
        show _ = (s.sent .host f.sta : ℤ) + s.sent .lan f.sta - _
        omega
    rw [hsum] at hpos
    unfold Hooks.hand
    rw [hpc, ← hn]
    exact .uncount hpos

theorem dnStore_keeps {n : ℕ} (hb : Booked b s)
    (hpc : s.pc h = .hook (.dnStore sta n) tok f tick) :
    Keeps b s ((s.setDone sta (u16 (n + 1))).setPc h (.hook (.dnProbe sta) tok f tick)) x := by
  have hheld := hb.holds _ _ _ _ _ hpc
  obtain ⟨rfl, hlt, hn⟩ := hheld.fresh
  obtain rfl := hheld.done rfl
  have hpos := hb.inside_pos hpc rfl hlt
  -- the host's hart is in no check and no send hook
  have hown : s.hand .host x = ⟨s.sent .host x, false, none⟩ := by
    unfold Hooks.hand
    rw [hpc]
    rfl
  have hgate : s.gate x = ⟨s.hand .lan x, ⟨s.sent .host x, false, none⟩, s.done x⟩ := by
    unfold Hooks.gate
    rw [hown]
  have hgate' : ((s.setDone f.sta (u16 (n + 1))).setPc .host
      (.hook (.dnProbe f.sta) tok f tick)).gate x = ⟨s.hand .lan x, ⟨s.sent .host x, false, none⟩,
        Function.update s.done f.sta (u16 (n + 1)) x⟩ := rfl
  unfold Keeps
  rw [hgate, hgate']
  rcases eq_or_ne x f.sta with rfl | hne
  · right
    rw [Function.update_self, hn]
    exact .complete hpos
  · left
    rw [Function.update_of_ne hne]

theorem hookStep_keeps (hb : Booked b s) (hpc : s.pc h = .hook g tok f tick)
    (hs : hookStep s h tok f tick g = some s') : Keeps b s s' x := by
  cases g with
  | sentStore n =>
    cases hs
    exact sentStore_keeps hb hpc
  | unStore n =>
    cases hs
    exact unStore_keeps hb hpc
  | dnStore sta n =>
    cases hs
    exact dnStore_keeps hb hpc
  | filling => cases hs
  | armLoad =>
    cases hs
    refine keeps_of_hook hpc rfl rfl rfl ?_ rfl
    split_ifs <;> rfl
  | unProbe | dnLoad | dnProbe sta =>
    unfold hookStep at hs
    dsimp only at hs
    split_ifs at hs
    all_goals
      cases hs
      exact keeps_of_hook hpc rfl rfl rfl rfl rfl
  | _ =>
    cases hs
    exact keeps_of_hook hpc rfl rfl rfl rfl rfl

theorem next_keeps (hb : Booked b s) (hs : nextStep s h = some s') : Keeps b s s' x := by
  unfold nextStep at hs
  split at hs
  · next hpc => exact hookStep_keeps hb hpc hs
  · next hpc =>
      cases hs
      refine keeps_of_place rfl rfl rfl (.inl ?_)
      rw [hpc]
      split_ifs <;> exact ⟨rfl, rfl⟩
  · next hpc =>
      cases hs
      refine keeps_of_place rfl rfl rfl (.inl ?_)
      rw [hpc]
      exact ⟨rfl, rfl⟩
  · cases hs

theorem step_keeps {a : HookAction} (hb : Booked b s) (hlim : b.cfg.limit ≠ 0)
    (hx : x < staQStas) (hs : hooksStep b s a = some s') : Keeps b s s' x := by
  -- actions of a hart outside a hook leave the gate; those of a hook have
  -- a lemma each
  cases a with
  | begin h sta => exact begin_keeps hlim hx hs
  | load h c => exact load_keeps hb hs
  | decide h => exact decide_keeps hb hlim hs
  | look h now =>
    change lookStep s h now = some s' at hs
    unfold lookStep at hs
    split at hs
    · next hpc =>
        split_ifs at hs
        cases hs
        refine keeps_of_place rfl rfl rfl (.inl ?_)
        rw [hpc]
        exact ⟨rfl, rfl⟩
    · cases hs
  | giveUp h => exact giveUp_keeps hb hs
  | take h tok now => exact take_keeps hx hs
  | publish h =>
    change publishStep s h = some s' at hs
    unfold publishStep at hs
    split at hs
    · next hpc =>
        cases hs
        exact keeps_of_hook hpc rfl rfl rfl rfl rfl
    · cases hs
  | unsend h =>
    change unsendStep s h = some s' at hs
    unfold unsendStep at hs
    split at hs
    · next hpc =>
        split_ifs at hs
        all_goals
          cases hs
          exact keeps_of_hook hpc rfl rfl rfl rfl rfl
    · cases hs
  | report tok now =>
    change reportStep s tok now = some s' at hs
    unfold reportStep at hs
    split at hs
    · split_ifs at hs with hpc
      cases hs
      refine keeps_of_place rfl rfl rfl (.inl ?_)
      rw [hpc.1]
      exact ⟨rfl, rfl⟩
    · cases hs
  | next h => exact next_keeps hb hs

/-- The books are in order and every station's gate fits. -/
structure Bounded (b : QBuild) (s : Hooks) : Prop where
  booked : Booked b s
  fits : ∀ x < staQStas, (s.gate x).Fits b.clanker b.cfg.limit

theorem bounded_of_reachable (hlim : b.cfg.limit ≠ 0) (hle : b.cfg.limit ≤ staQTokens)
    (hr : (hooksSystem b).Reachable s) : Bounded b s := by
  refine hr.invariant ?_ ?_
  · intro s0 h0
    rw [show s0 = staQInit from h0]
    exact ⟨Booked.init b, fun _ _ => Gate.Fits.empty _ _⟩
  · intro s0 a s1 hinv hstep
    refine ⟨hinv.booked.step hstep, ?_⟩
    intro x hx
    rcases step_keeps hinv.booked hlim hx hstep with heq | hmove
    · rw [heq]
      exact hinv.fits x hx
    · exact (hinv.fits x hx).move hle (Nat.pos_of_ne_zero hlim) hmove

/-- With a constant limit the frames of a tracked station inside the chip
    and counted never exceed it with one sender, and never exceed it by
    more than one with two, in any interleaving. -/
theorem inside_le_limit (b : QBuild) (s : Hooks) (hlim : b.cfg.limit ≠ 0)
    (hle : b.cfg.limit ≤ staQTokens) (hr : (hooksSystem b).Reachable s) :
    ∀ sta < staQStas, s.inside sta ≤ if b.clanker then b.cfg.limit + 1 else b.cfg.limit := by
  intro sta hsta
  have hinv := bounded_of_reachable hlim hle hr
  have hin : (s.gate sta).inside = s.inside sta := by
    have hcount := hinv.booked.count sta hsta
    have hcast := natCast_u16 (s.net sta)
    show u16 (s.net sta) = _
    omega
  have hcap := (hinv.fits sta hsta).inside_le
  rw [hin] at hcap
  exact hcap

/-- Both harts send, and a station may have one frame in the chip. -/
def oneFrameBuild : QBuild := ⟨true, ⟨1, 0, 0, 0, 0, 0⟩⟩

/-- Both harts pass the check before either counts its frame. -/
def bothPass : List HookAction :=
  [.begin .lan 5, .begin .host 5, .load .lan .own, .load .lan .other, .load .lan .done,
    .load .host .own, .load .host .other, .load .host .done, .decide .lan, .decide .host,
    .take .lan 77 0, .take .host 78 0, .next .lan, .next .lan, .next .lan, .next .host,
    .next .host, .next .host]

/-- The bound is reached: two frames with a limit of one. -/
theorem bothPass_end : (StepSystem.run (hooksStep oneFrameBuild) (fun _ _ => true) staQInit
    bothPass).map (fun s => s.queued oneFrameBuild 5) = some 2 := by
  decide +kernel

theorem inside_le_limit_bothPass : ∃ s : Hooks, s.queued oneFrameBuild 5 = 2 ∧
    ∀ sta < staQStas, s.inside sta ≤
      if oneFrameBuild.clanker then oneFrameBuild.cfg.limit + 1 else oneFrameBuild.cfg.limit := by
  obtain ⟨s, hs, hend⟩ := Option.map_eq_some_iff.mp bothPass_end
  refine ⟨s, hend, inside_le_limit oneFrameBuild s (by decide) (by decide) ?_⟩
  exact .of_run (fun _ _ _ _ hstep => hstep) (.init rfl) hs

end ClankerNPU.StaQ
