import ClankerNPU.StaQ.Accounting

/-! # The probe times one frame

    A probe that is not free names the token and the send tick of a frame
    of its own station that is still on its way, so the delay written
    when that token is reported is that frame's. -/

namespace ClankerNPU.StaQ

variable {b : QBuild} {s s' : Hooks} {h : Sender} {g : Stage} {tok tick sta : ℕ} {f : Frame}

/-- A frame of the station rides on the token of the probe's word, sent
    at its tick. -/
def Hooks.Times (s : Hooks) (sta w : ℕ) : Prop :=
  ∃ f, s.flight (w % 2 ^ 16) = some f ∧ f.sta = sta ∧ f.tick = w / 2 ^ 16

/-- The value is the time the frame spent between its two hooks. -/
def DelayWrite.OfOneFrame (d : DelayWrite) : Prop :=
  d.frame.sta = d.sta ∧ d.value = u16 ((d.doneTick : ℤ) - d.frame.tick)

/-- The hart holds a probe's word it is about to write the delay from. -/
def Pc.reading : Pc → Bool
  | .hook (.dnDelay _ _) _ _ _ => true
  | _ => false

/-- The probes are in order. -/
structure Timed (s : Hooks) : Prop where
  probe : ∀ sta, s.tokts sta % 2 ^ 16 ≠ staQNone → sta < staQStas ∧ s.Times sta (s.tokts sta)
  read : ∀ h sta w tok f tick, s.pc h = .hook (.dnDelay sta w) tok f tick → f.tick = w / 2 ^ 16
  log : ∀ d ∈ s.delays, d.OfOneFrame
  last : ∀ sta, s.delay sta = 0 ∨ ∃ d ∈ s.delays, d.sta = sta ∧ d.value = s.delay sta

theorem Timed.init : Timed staQInit where
  probe := fun _ hne => absurd rfl hne
  read := fun _ _ _ _ _ _ hk => Pc.noConfusion hk
  log := fun _ hd => absurd hd List.not_mem_nil
  last := fun _ => .inl rfl

/-- The word of a free probe names no token. -/
theorem staQNone_word : staQNone % 2 ^ 16 = staQNone := by decide

/-- The probes stay in order where they stay as they are or are freed
    and no timed frame leaves. -/
theorem Timed.keep {p : Pc} (ht : Timed s) (hpc : s'.pc = Function.update s.pc h p)
    (hp : p.reading = false)
    (htokts : ∀ x, s'.tokts x = s.tokts x ∨ s'.tokts x = staQNone)
    (hflight : ∀ x, s'.tokts x % 2 ^ 16 ≠ staQNone → s'.tokts x = s.tokts x →
      s.Times x (s.tokts x) → s'.Times x (s.tokts x))
    (hdelay : s'.delay = s.delay) (hdelays : s'.delays = s.delays) : Timed s' := by
  constructor
  · intro x hx
    rcases htokts x with heq | hnone
    · have hold : s.tokts x % 2 ^ 16 ≠ staQNone := by
        rw [← heq]
        exact hx
      obtain ⟨hlt, htimes⟩ := ht.probe x hold
      rw [heq]
      exact ⟨hlt, hflight x hx heq htimes⟩
    · rw [hnone] at hx
      exact absurd staQNone_word hx
  · intro k sta w tok f tick hk
    rcases eq_or_ne k h with rfl | hne
    · rw [hpc, Function.update_self] at hk
      rw [hk] at hp
      exact Bool.noConfusion hp
    · rw [hpc, Function.update_of_ne hne] at hk
      exact ht.read k sta w tok f tick hk
  · intro d hd
    rw [hdelays] at hd
    exact ht.log d hd
  · intro x
    rw [hdelay, hdelays]
    exact ht.last x

theorem Hooks.Times.of_flight {x w : ℕ} (ht : s.Times x w) (hflight : s'.flight = s.flight) :
    s'.Times x w := by
  obtain ⟨f, hf, hrest⟩ := ht
  refine ⟨f, ?_, hrest⟩
  rw [hflight]
  exact hf

/-- A step that neither touches a probe nor frees a token. -/
theorem Timed.still {p : Pc} (ht : Timed s) (hpc : s'.pc = Function.update s.pc h p)
    (hp : p.reading = false)
    (htokts : s'.tokts = s.tokts) (hflight : s'.flight = s.flight)
    (hdelay : s'.delay = s.delay) (hdelays : s'.delays = s.delays) : Timed s' := by
  apply ht.keep hpc hp _ _ hdelay hdelays
  · intro x
    exact .inl (congrFun htokts x)
  · intro x _ _ htimes
    exact htimes.of_flight hflight

/-- A probe that is freed. -/
theorem Timed.free {p : Pc} (ht : Timed s) (sta : ℕ) (hpc : s'.pc = Function.update s.pc h p)
    (hp : p.reading = false)
    (htokts : s'.tokts = Function.update s.tokts sta staQNone) (hflight : s'.flight = s.flight)
    (hdelay : s'.delay = s.delay) (hdelays : s'.delays = s.delays) : Timed s' := by
  apply ht.keep hpc hp _ _ hdelay hdelays
  · intro x
    rw [htokts]
    rcases eq_or_ne x sta with rfl | hne
    · exact .inr (Function.update_self _ _ _)
    · exact .inl (Function.update_of_ne hne _ _)
  · intro x _ _ htimes
    exact htimes.of_flight hflight

/-- A token that no probe names any more is freed. -/
theorem Timed.finish (ht : Timed s) (hpc : s'.pc = Function.update s.pc h .idle)
    (hf : s.flight tok = some f) (hflight : s'.flight = Function.update s.flight tok none)
    (htokts : ∀ x, s'.tokts x = s.tokts x ∨ s'.tokts x = staQNone)
    (hown : f.sta < staQStas → s'.tokts f.sta % 2 ^ 16 ≠ tok)
    (hdelay : s'.delay = s.delay) (hdelays : s'.delays = s.delays) : Timed s' := by
  apply ht.keep hpc rfl htokts _ hdelay hdelays
  intro x hx heq ⟨f', hf', hsta, htick⟩
  have hne : s.tokts x % 2 ^ 16 ≠ tok := by
    intro htok
    rw [htok, hf] at hf'
    injection hf' with hf'
    subst hf'
    have hold : s.tokts x % 2 ^ 16 ≠ staQNone := by
      rw [← heq]
      exact hx
    have hlt := (ht.probe x hold).1
    rw [← hsta] at hlt heq htok
    apply hown hlt
    rw [heq]
    exact htok
  refine ⟨f', ?_, hsta, htick⟩
  rw [hflight, Function.update_of_ne hne]
  exact hf'

/-- The probe is armed with a token on its way. -/
theorem Timed.arm {p : Pc} (ht : Timed s) (hf : s.flight tok = some f) (htok : tok < staQTokens)
    (hlt : f.sta < staQStas) (hp : p.reading = false) :
    Timed ((s.setTokts f.sta (tok + f.tick * 2 ^ 16)).setPc h p) := by
  have hpc : ((s.setTokts f.sta (tok + f.tick * 2 ^ 16)).setPc h p).pc =
      Function.update s.pc h p := rfl
  unfold staQTokens at htok
  constructor
  · intro x hx
    rcases eq_or_ne x f.sta with rfl | hne
    · have hnew : ((s.setTokts f.sta (tok + f.tick * 2 ^ 16)).setPc h p).tokts f.sta =
          tok + f.tick * 2 ^ 16 := Function.update_self _ _ _
      have hmod : (tok + f.tick * 2 ^ 16) % 2 ^ 16 = tok := by omega
      have hdiv : (tok + f.tick * 2 ^ 16) / 2 ^ 16 = f.tick := by omega
      rw [hnew]
      refine ⟨hlt, f, ?_, rfl, hdiv.symm⟩
      rw [hmod]
      exact hf
    · have hold : ((s.setTokts f.sta (tok + f.tick * 2 ^ 16)).setPc h p).tokts x = s.tokts x :=
        Function.update_of_ne hne _ _
      rw [hold] at hx ⊢
      obtain ⟨hx1, htimes⟩ := ht.probe x hx
      exact ⟨hx1, htimes.of_flight rfl⟩
  · intro k sta w tok' f' tick hk
    rcases eq_or_ne k h with rfl | hne
    · rw [hpc, Function.update_self] at hk
      rw [hk] at hp
      exact Bool.noConfusion hp
    · rw [hpc, Function.update_of_ne hne] at hk
      exact ht.read k sta w tok' f' tick hk
  · exact ht.log
  · exact ht.last

/-- The probe's word was loaded while it named the hart's token. -/
theorem Timed.catch (ht : Timed s) (hf : s.flight tok = some f) (htok : tok < staQTokens)
    (hword : s.tokts sta % 2 ^ 16 = tok) :
    Timed (s.setPc h (.hook (.dnDelay sta (s.tokts sta)) tok f tick)) := by
  constructor
  · intro x hx
    obtain ⟨hlt, htimes⟩ := ht.probe x hx
    exact ⟨hlt, htimes.of_flight rfl⟩
  · intro k sta' w tok' f' tick' hk
    rcases eq_or_ne k h with rfl | hne
    · change Function.update s.pc k _ k = _ at hk
      rw [Function.update_self] at hk
      injection hk with e1 e2 e3 e4
      injection e1 with e5 e6
      subst e2 e3 e6
      have hnone : s.tokts sta % 2 ^ 16 ≠ staQNone := by
        unfold staQTokens at htok
        unfold staQNone
        omega
      obtain ⟨f', hf', -, htick⟩ := (ht.probe sta hnone).2
      rw [hword, hf] at hf'
      injection hf' with hf'
      rw [hf']
      exact htick
    · change Function.update s.pc h _ k = _ at hk
      rw [Function.update_of_ne hne] at hk
      exact ht.read k sta' w tok' f' tick' hk
  · exact ht.log
  · exact ht.last

/-- The delay is written. -/
theorem Timed.write {w : ℕ} (ht : Timed s) (hpc : s.pc h = .hook (.dnDelay sta w) tok f tick)
    (hsta : sta = f.sta) :
    Timed ((s.setDelay sta (u16 ((tick : ℤ) - (w / 2 ^ 16 : ℕ))) f tick).setPc h
      (.hook (.dnClear sta) tok f tick)) := by
  have htick := ht.read h sta w tok f tick hpc
  constructor
  · intro x hx
    obtain ⟨hlt, htimes⟩ := ht.probe x hx
    exact ⟨hlt, htimes.of_flight rfl⟩
  · intro k sta' w' tok' f' tick' hk
    change Function.update s.pc h _ k = _ at hk
    rcases eq_or_ne k h with rfl | hne
    · rw [Function.update_self] at hk
      injection hk with e1
      exact Stage.noConfusion e1
    · rw [Function.update_of_ne hne] at hk
      exact ht.read k sta' w' tok' f' tick' hk
  · intro d hd
    rcases List.mem_append.1 hd with hd | hd
    · exact ht.log d hd
    · rw [List.mem_singleton.1 hd]
      refine ⟨hsta.symm, ?_⟩
      show u16 ((tick : ℤ) - (w / 2 ^ 16 : ℕ)) = u16 ((tick : ℤ) - f.tick)
      rw [htick]
  · intro x
    rcases eq_or_ne x sta with rfl | hne
    · right
      refine ⟨_, List.mem_append_right _ (List.mem_singleton_self _), rfl, ?_⟩
      exact (Function.update_self x _ s.delay).symm
    · have hold : ((s.setDelay sta (u16 ((tick : ℤ) - (w / 2 ^ 16 : ℕ))) f tick).setPc h
          (.hook (.dnClear sta) tok f tick)).delay x = s.delay x := Function.update_of_ne hne _ _
      rw [hold]
      rcases ht.last x with hzero | ⟨d, hd, hrest⟩
      · exact .inl hzero
      · exact .inr ⟨d, List.mem_append_left _ hd, hrest⟩

/-! ## Every step -/

theorem Timed.hookStep (ht : Timed s) (hb : Booked b s) (hpc : s.pc h = .hook g tok f tick)
    (hs : hookStep s h tok f tick g = some s') : Timed s' := by
  obtain ⟨hf, -, -, hfresh⟩ := hb.holds h g tok f tick hpc
  have htok := hb.pooled tok f hf
  have hword : staQNone % 2 ^ 16 ≠ tok := by
    unfold staQTokens at htok
    unfold staQNone
    omega
  cases g with
  | filling => cases hs
  | armLoad =>
    cases hs
    refine ht.still rfl ?_ rfl rfl rfl rfl
    split_ifs <;> rfl
  | armStore =>
    cases hs
    exact ht.arm hf htok hfresh rfl
  | unProbe =>
    unfold StaQ.hookStep at hs
    dsimp only at hs
    split_ifs at hs with hp
    · cases hs
      exact ht.still rfl rfl rfl rfl rfl rfl
    · cases hs
      exact ht.finish rfl hf rfl (fun _ => .inl rfl) (fun _ => hp) rfl rfl
  | unClear =>
    cases hs
    refine ht.finish rfl hf rfl ?_ ?_ rfl rfl
    · intro x
      rcases eq_or_ne x f.sta with rfl | hne
      · exact .inr (Function.update_self _ _ _)
      · exact .inl (Function.update_of_ne hne _ _)
    · intro _
      show Function.update s.tokts f.sta staQNone f.sta % 2 ^ 16 ≠ tok
      rw [Function.update_self]
      exact hword
  | dnLoad =>
    unfold StaQ.hookStep at hs
    dsimp only at hs
    split_ifs at hs with hp
    · cases hs
      exact ht.still rfl rfl rfl rfl rfl rfl
    · cases hs
      refine ht.finish rfl hf rfl (fun _ => .inl rfl) ?_ rfl rfl
      intro hlt
      -- a frame of a tracked station is in the map
      have hmap := hb.map_of_hook hpc
      rw [Stage.entry_of_lt rfl hlt, not_not.1 hp] at hmap
      unfold staQStas at hlt
      unfold staQNone at hmap
      omega
  | dnProbe sta =>
    obtain ⟨rfl, hlt⟩ := hfresh
    unfold StaQ.hookStep at hs
    dsimp only at hs
    split_ifs at hs with hp
    · cases hs
      exact ht.catch hf htok hp
    · cases hs
      exact ht.finish rfl hf rfl (fun _ => .inl rfl) (fun _ => hp) rfl rfl
  | dnDelay sta w =>
    cases hs
    exact ht.write hpc hfresh.1
  | dnClear sta =>
    obtain ⟨rfl, hlt⟩ := hfresh
    cases hs
    refine ht.finish rfl hf rfl ?_ ?_ rfl rfl
    · intro x
      rcases eq_or_ne x f.sta with rfl | hne
      · exact .inr (Function.update_self _ _ _)
      · exact .inl (Function.update_of_ne hne _ _)
    · intro _
      show Function.update s.tokts f.sta staQNone f.sta % 2 ^ 16 ≠ tok
      rw [Function.update_self]
      exact hword
  | _ =>
    cases hs
    exact ht.still rfl rfl rfl rfl rfl rfl

theorem Timed.next (ht : Timed s) (hb : Booked b s) (hs : nextStep s h = some s') : Timed s' := by
  unfold nextStep at hs
  split at hs
  · next hpc => exact ht.hookStep hb hpc hs
  · cases hs
    refine ht.still rfl ?_ rfl rfl rfl rfl
    split_ifs <;> rfl
  · next sta _ =>
      cases hs
      exact ht.free sta rfl rfl rfl rfl rfl rfl
  · cases hs

/-- A frame is put on a free token, which no probe names. -/
theorem Timed.carry (ht : Timed s) (hfree : s.flight tok = none) : Timed (s.carry h tok f) := by
  have hpc : (s.carry h tok f).pc = Function.update s.pc h (.hook f.firstStage tok f 0) := rfl
  apply ht.keep hpc _ (fun _ => .inl rfl) _ rfl rfl
  · unfold Frame.firstStage
    split_ifs <;> rfl
  · intro x _ _ ⟨f', hf', hrest⟩
    have hne : s.tokts x % 2 ^ 16 ≠ tok := by
      intro heq
      rw [heq, hfree] at hf'
      exact Option.some_ne_none f' hf'.symm
    refine ⟨f', ?_, hrest⟩
    show Function.update s.flight tok (some f) _ = _
    rw [Function.update_of_ne hne]
    exact hf'

theorem Timed.step {a : HookAction} (ht : Timed s) (hb : Booked b s)
    (hs : hooksStep b s a = some s') : Timed s' := by
  -- only a take, an unsend and a hook's next access touch the probe or
  -- a flight
  cases a with
  | begin h sta =>
    change beginStep b s h sta = some s' at hs
    unfold beginStep at hs
    split_ifs at hs
    all_goals
      cases hs
      exact ht.still rfl rfl rfl rfl rfl rfl
  | load h c =>
    change loadStep s h c = some s' at hs
    unfold loadStep at hs
    split at hs
    case h_4 => cases hs
    all_goals
      cases hs
      exact ht.still rfl rfl rfl rfl rfl rfl
  | decide h =>
    change decideStep b s h = some s' at hs
    unfold decideStep at hs
    split at hs
    · cases hs
      refine ht.still rfl ?_ rfl rfl rfl rfl
      split_ifs <;> rfl
    · cases hs
  | look h now =>
    change lookStep s h now = some s' at hs
    unfold lookStep at hs
    split at hs
    · split_ifs at hs
      cases hs
      exact ht.still rfl rfl rfl rfl rfl rfl
    · cases hs
  | giveUp h =>
    change giveUpStep s h = some s' at hs
    unfold giveUpStep at hs
    split at hs
    · cases hs
      exact ht.still rfl rfl rfl rfl rfl rfl
    · cases hs
  | take h tok now =>
    change takeStep s h tok now = some s' at hs
    unfold takeStep at hs
    split at hs
    · split_ifs at hs with hfree
      cases hs
      exact ht.carry hfree.1
    · cases hs
  | publish h =>
    change publishStep s h = some s' at hs
    unfold publishStep at hs
    split at hs
    · cases hs
      exact ht.still rfl rfl rfl rfl rfl rfl
    · cases hs
  | unsend h =>
    change unsendStep s h = some s' at hs
    unfold unsendStep at hs
    split at hs
    · next tok f tick hpc =>
        have hf := (hb.holds _ _ _ _ _ hpc).flight
        split_ifs at hs with hlt
        · cases hs
          exact ht.still rfl rfl rfl rfl rfl rfl
        · cases hs
          exact ht.finish rfl hf rfl (fun _ => .inl rfl) (fun hlt' => absurd hlt' hlt) rfl rfl
    · cases hs
  | report tok now =>
    change reportStep s tok now = some s' at hs
    unfold reportStep at hs
    split at hs
    · split_ifs at hs
      cases hs
      exact ht.still rfl rfl rfl rfl rfl rfl
    · cases hs
  | next h => exact ht.next hb hs

/-- The books and the probes are in order. -/
def InOrder (b : QBuild) (s : Hooks) : Prop := Booked b s ∧ Timed s

theorem timed_of_reachable (hr : (hooksSystem b).Reachable s) : Timed s := by
  have hinv : InOrder b s := by
    refine hr.invariant ?_ ?_
    · intro s0 h0
      rw [show s0 = staQInit from h0]
      exact ⟨Booked.init b, Timed.init⟩
    · intro s0 a s1 hinv hstep
      exact ⟨hinv.1.step hstep, hinv.2.step hinv.1 hstep⟩
  exact hinv.2

/-- In every run every value written to a station's probe is the time one
    frame of that station spent between its send and its done hook, in
    ticks modulo 2^16, and the probe holds the value of such a write. -/
theorem probe_times_one_frame (b : QBuild) (s : Hooks) (hr : (hooksSystem b).Reachable s) :
    (∀ d ∈ s.delays, d.OfOneFrame) ∧
      ∀ sta, s.delay sta = 0 ∨ ∃ d ∈ s.delays, d.sta = sta ∧ d.value = s.delay sta := by
  have ht := timed_of_reachable hr
  exact ⟨ht.log, ht.last⟩

/-- One frame through all its hooks, reported 0x100 ticks later. -/
def oneTimed : List HookAction :=
  oneSent ++ [.report 77 0x13345678, .next .host, .next .host, .next .host, .next .host,
    .next .host, .next .host, .next .host]

theorem oneTimed_end : (StepSystem.run (hooksStep defaultBuild) (fun _ _ => true) staQInit
    oneTimed).map (·.delays) = some [⟨5, 0x100, ⟨5, 0x1234⟩, 0x1334⟩] := by
  decide +kernel

theorem probe_times_one_frame_oneTimed :
    ∃ s : Hooks, s.delays = [⟨5, 0x100, ⟨5, 0x1234⟩, 0x1334⟩] ∧ (∀ d ∈ s.delays, d.OfOneFrame) ∧
      ∀ sta, s.delay sta = 0 ∨ ∃ d ∈ s.delays, d.sta = sta ∧ d.value = s.delay sta := by
  obtain ⟨s, hs, hend⟩ := Option.map_eq_some_iff.mp oneTimed_end
  refine ⟨s, hend, probe_times_one_frame defaultBuild s ?_⟩
  exact .of_run (fun _ _ _ _ hstep => hstep) (.init rfl) hs

end ClankerNPU.StaQ
