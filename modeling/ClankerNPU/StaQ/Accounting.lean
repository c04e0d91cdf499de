import ClankerNPU.StaQ.Hooks

/-! # Exact accounting

    At every point of every interleaving the counters of a station agree,
    modulo 2^16, with the frames that are counted for it, and the map
    names a token's station exactly while a counted frame rides on it.
    A hart that is half-way through a hook holds current values, since
    each counter has one writer. -/

namespace ClankerNPU.StaQ

open Tally

variable {b : QBuild} {s s' : Hooks} {h h' : Sender} {g g' : Stage} {tok tick sta : ℕ} {f : Frame}

theorem Sender.other_ne (h : Sender) : h.other ≠ h := by
  cases h <;> decide

theorem Sender.eq_or_other (h h' : Sender) : h' = h ∨ h' = h.other := by
  cases h <;> cases h' <;> decide

/-- The token whose hook a hart is in. -/
def Pc.token : Pc → Option ℕ
  | .hook _ tok _ _ => some tok
  | _ => none

/-- The hart is on its way to send a frame, or in a hook of the sender. -/
def Pc.sending : Pc → Bool
  | .idle => false
  | .hook g _ _ _ => !g.isDone
  | _ => true

/-- What a hart has loaded so far is current. -/
def Stage.fresh (s : Hooks) (h : Sender) (f : Frame) : Stage → Prop
  | .sentMap | .sentLoad | .armLoad | .armStore => f.sta < staQStas
  | .unMap | .unLoad | .unProbe | .unClear => f.sta < staQStas
  | .sentStore n | .unStore n => f.sta < staQStas ∧ n = s.sent h f.sta
  | .filling | .dnLoad => True
  | .dnMap sta | .dnCount sta | .dnProbe sta | .dnClear sta => sta = f.sta ∧ f.sta < staQStas
  | .dnDelay sta _ => sta = f.sta ∧ f.sta < staQStas
  | .dnStore sta n => sta = f.sta ∧ f.sta < staQStas ∧ n = s.done sta

/-- The station a frame is counted for at a stage. -/
def Stage.label (g : Stage) (f : Frame) : Option ℕ := if g.counted then f.station else none

/-- What the map says of a token at a stage. -/
def Stage.entry (g : Stage) (f : Frame) : ℕ :=
  if g.mapped then f.station.getD staQNone else staQNone

/-- The counters of a station, as one number. -/
def Hooks.net (s : Hooks) (sta : ℕ) : ℤ := s.sent .lan sta + s.sent .host sta - s.done sta

/-- A hart's hook, the frame it is for and what it has loaded. -/
structure Holds (s : Hooks) (h : Sender) (g : Stage) (tok : ℕ) (f : Frame) : Prop where
  flight : s.flight tok = some f
  chip : s.inChip tok = g.isDone
  done : g.isDone = true → h = .host
  fresh : g.fresh s h f

/-- The books are in order. -/
structure Booked (b : QBuild) (s : Hooks) : Prop where
  holds : ∀ h g tok f tick, s.pc h = .hook g tok f tick → Holds s h g tok f
  apart : ∀ h, (s.pc h).token ≠ none → (s.pc h.other).token ≠ (s.pc h).token
  pooled : ∀ tok f, s.flight tok = some f → tok < staQTokens
  chip : ∀ tok, s.inChip tok = true → s.flight tok ≠ none
  map : ∀ tok, s.map tok = s.named tok
  count : ∀ x < staQStas, s.net x % 2 ^ 16 = s.inside x
  alone : b.clanker = false → (∀ x, s.sent .host x = 0) ∧ (s.pc .host).sending = false

/-! ## Tokens, labels and the map -/

theorem Frame.station_lt {x : ℕ} (h : f.station = some x) : x < staQStas := by
  unfold Frame.station at h
  split_ifs at h with hlt
  · injection h with h
    omega

theorem Frame.station_of_lt (h : f.sta < staQStas) : f.station = some f.sta := if_pos h

theorem Pc.uncounted_of_token {p : Pc} (h : p.token ≠ some tok) : p.uncounted tok = false := by
  cases p with
  | hook g t f tick =>
    have hne : t ≠ tok := fun heq => h (congrArg some heq)
    simp [Pc.uncounted, hne]
  | _ => rfl

theorem Pc.unmapped_of_token {p : Pc} (h : p.token ≠ some tok) : p.unmapped tok = false := by
  cases p with
  | hook g t f tick =>
    have hne : t ≠ tok := fun heq => h (congrArg some heq)
    simp [Pc.unmapped, hne]
  | _ => rfl

theorem Hooks.counted_eq (s : Hooks) (h : Sender) (tok : ℕ) :
    s.counted tok = if (s.pc h).uncounted tok || (s.pc h.other).uncounted tok then none
      else s.station tok := by
  cases h with
  | lan => rfl
  | host =>
    rw [Bool.or_comm]
    rfl

theorem Hooks.named_eq (s : Hooks) (h : Sender) (tok : ℕ) :
    s.named tok = if (s.pc h).unmapped tok || (s.pc h.other).unmapped tok then staQNone
      else (s.station tok).getD staQNone := by
  cases h with
  | lan => rfl
  | host =>
    rw [Bool.or_comm]
    rfl

/-- The label of a token a hart has in a hook, the other hart not being
    at that token. -/
theorem Hooks.counted_of_hook (hpc : s.pc h = .hook g tok f tick)
    (hother : (s.pc h.other).token ≠ some tok) (hf : s.flight tok = some f) :
    s.counted tok = g.label f := by
  rw [s.counted_eq h, Pc.uncounted_of_token hother, hpc]
  cases hg : g.counted <;> simp [Pc.uncounted, Stage.label, Hooks.station, hf, hg]

theorem Hooks.named_of_hook (hpc : s.pc h = .hook g tok f tick)
    (hother : (s.pc h.other).token ≠ some tok) (hf : s.flight tok = some f) :
    s.named tok = g.entry f := by
  rw [s.named_eq h, Pc.unmapped_of_token hother, hpc]
  cases hg : g.mapped <;> simp [Pc.unmapped, Stage.entry, Hooks.station, hf, hg]

/-- The label of a token no hart is at. -/
theorem Hooks.counted_of_clear (h : Sender) (hown : (s.pc h).token ≠ some tok)
    (hother : (s.pc h.other).token ≠ some tok) : s.counted tok = s.station tok := by
  rw [s.counted_eq h, Pc.uncounted_of_token hown, Pc.uncounted_of_token hother]
  rfl

theorem Hooks.named_of_clear (h : Sender) (hown : (s.pc h).token ≠ some tok)
    (hother : (s.pc h.other).token ≠ some tok) :
    s.named tok = (s.station tok).getD staQNone := by
  rw [s.named_eq h, Pc.unmapped_of_token hown, Pc.unmapped_of_token hother]
  rfl

/-- Only the hart's own hook moved: the labels of other tokens stay. -/
theorem Hooks.counted_away {t : ℕ} {p : Pc} (hpc : s'.pc = Function.update s.pc h p)
    (hold : (s.pc h).token ≠ some t) (hnew : p.token ≠ some t)
    (hf : s'.flight t = s.flight t) : s'.counted t = s.counted t := by
  have hother : s'.pc h.other = s.pc h.other := by
    rw [hpc]
    exact Function.update_of_ne h.other_ne _ _
  have hown : s'.pc h = p := by
    rw [hpc]
    exact Function.update_self _ _ _
  rw [s'.counted_eq h, s.counted_eq h, hother, hown, Pc.uncounted_of_token hold,
    Pc.uncounted_of_token hnew]
  unfold Hooks.station
  rw [hf]

theorem Hooks.named_away {t : ℕ} {p : Pc} (hpc : s'.pc = Function.update s.pc h p)
    (hold : (s.pc h).token ≠ some t) (hnew : p.token ≠ some t)
    (hf : s'.flight t = s.flight t) : s'.named t = s.named t := by
  have hother : s'.pc h.other = s.pc h.other := by
    rw [hpc]
    exact Function.update_of_ne h.other_ne _ _
  have hown : s'.pc h = p := by
    rw [hpc]
    exact Function.update_self _ _ _
  rw [s'.named_eq h, s.named_eq h, hother, hown, Pc.unmapped_of_token hold,
    Pc.unmapped_of_token hnew]
  unfold Hooks.station
  rw [hf]

theorem Stage.fresh_congr (hsent : s'.sent h = s.sent h)
    (hdone : g.isDone = true → s'.done = s.done)
    (hg : g.fresh s h f) : g.fresh s' h f := by
  cases g with
  | sentStore n | unStore n =>
    unfold Stage.fresh at hg ⊢
    rw [hsent]
    exact hg
  | dnStore sta n =>
    unfold Stage.fresh at hg ⊢
    rw [hdone rfl]
    exact hg
  | _ => exact hg

theorem Holds.congr (hh : Holds s h g tok f) (hflight : s'.flight tok = s.flight tok)
    (hchip : s'.inChip tok = s.inChip tok) (hsent : s'.sent h = s.sent h)
    (hdone : g.isDone = true → s'.done = s.done) : Holds s' h g tok f where
  flight := hflight.trans hh.flight
  chip := hchip.trans hh.chip
  done := hh.done
  fresh := Stage.fresh_congr hsent hdone hh.fresh

theorem Booked.other_token (hb : Booked b s) (hpc : s.pc h = .hook g tok f tick) :
    (s.pc h.other).token ≠ some tok := by
  have hne := hb.apart h
  rw [hpc] at hne
  exact hne (Option.some_ne_none _)

/-- Harts whose hooks are of different tokens, one of them moved. -/
theorem apart_update {p : Pc} (hpc : s'.pc = Function.update s.pc h p)
    (hp : p.token ≠ none → (s.pc h.other).token ≠ p.token) :
    ∀ k, (s'.pc k).token ≠ none → (s'.pc k.other).token ≠ (s'.pc k).token := by
  intro k hk
  have hown : s'.pc h = p := by
    rw [hpc]
    exact Function.update_self _ _ _
  have hother : s'.pc h.other = s.pc h.other := by
    rw [hpc]
    exact Function.update_of_ne h.other_ne _ _
  rcases h.eq_or_other k with rfl | rfl
  · rw [hown] at hk ⊢
    rw [hother]
    exact hp hk
  · have hback : h.other.other = h := by cases h <;> rfl
    rw [hother] at hk ⊢
    rw [hback, hown]
    intro heq
    exact hp (heq ▸ hk) heq.symm

/-! ## Moves of one hart -/

/-- The frames of a station after the label of one token changed. -/
theorem Hooks.inside_change {x : ℕ} (htok : tok < staQTokens)
    (haway : ∀ t, t ≠ tok → s'.counted t = s.counted t) :
    s'.inside x + unit (s.counted tok) (some x) = s.inside x + unit (s'.counted tok) (some x) :=
  tally_change (some x) htok haway

/-- One access of a hart inside a hook, to the next stage of the hook. -/
theorem Booked.move (hb : Booked b s) (hpc : s.pc h = .hook g tok f tick)
    (hpc' : s'.pc = Function.update s.pc h (.hook g' tok f tick))
    (hflight : s'.flight = s.flight) (hchip : s'.inChip = s.inChip)
    (hisDone : g'.isDone = g.isDone) (hfresh : g'.fresh s' h f)
    (hsent : ∀ k, k ≠ h → s'.sent k = s.sent k) (hdones : g.isDone = true → s'.sent = s.sent)
    (hsends : g.isDone = false → s'.done = s.done)
    (haway : ∀ t, t ≠ tok → s'.map t = s.map t) (hmap : s'.map tok = g'.entry f)
    (hcount : ∀ x, (s'.net x + unit (g.label f) (some x)) % 2 ^ 16 =
      (s.net x + unit (g'.label f) (some x)) % 2 ^ 16) : Booked b s' := by
  have hheld := hb.holds h g tok f tick hpc
  have hown : s'.pc h = .hook g' tok f tick := by
    rw [hpc']
    exact Function.update_self _ _ _
  have hotherPc : s'.pc h.other = s.pc h.other := by
    rw [hpc']
    exact Function.update_of_ne h.other_ne _ _
  have hother : (s.pc h.other).token ≠ some tok := hb.other_token hpc
  have hother' : (s'.pc h.other).token ≠ some tok := by
    rw [hotherPc]
    exact hother
  have hf' : s'.flight tok = some f := by
    rw [hflight]
    exact hheld.flight
  have holdTok (t : ℕ) (ht : t ≠ tok) : (s.pc h).token ≠ some t := by
    rw [hpc]
    exact fun heq => ht (Option.some.inj heq).symm
  have hnewTok (t : ℕ) (ht : t ≠ tok) :
      (Pc.hook g' tok f tick).token ≠ some t := fun heq => ht (Option.some.inj heq).symm
  constructor
  · -- a hart is in its own hook, or in the hook of the other
    intro k g'' tok' f' tick' hk
    rcases h.eq_or_other k with rfl | rfl
    · rw [hown] at hk
      injection hk with e1 e2 e3 e4
      subst e1 e2 e3
      exact ⟨hf', (congrFun hchip _).trans (hheld.chip.trans hisDone.symm),
        fun hd => hheld.done (hisDone ▸ hd), hfresh⟩
    · rw [hotherPc] at hk
      have hk' := hb.holds _ _ _ _ _ hk
      apply hk'.congr (congrFun hflight _) (congrFun hchip _) (hsent _ h.other_ne)
      intro hd
      apply hsends
      -- done hooks run on one hart only
      by_contra hg
      have h1 := hheld.done (by simpa using hg)
      have h2 := hk'.done hd
      rw [h1] at h2
      exact Sender.other_ne _ h2
  · apply apart_update hpc'
    intro _
    exact hother
  · intro t f' ht
    rw [hflight] at ht
    exact hb.pooled t f' ht
  · intro t ht
    rw [hflight]
    rw [hchip] at ht
    exact hb.chip t ht
  · intro t
    rcases eq_or_ne t tok with rfl | ht
    · rw [Hooks.named_of_hook hown hother' hf']
      exact hmap
    · rw [haway t ht, Hooks.named_away hpc' (holdTok t ht) (hnewTok t ht) (congrFun hflight t)]
      exact hb.map t
  · intro x hx
    have htok := hb.pooled tok f hheld.flight
    have hin := Hooks.inside_change (x := x) htok fun t ht =>
      Hooks.counted_away hpc' (holdTok t ht) (hnewTok t ht) (congrFun hflight t)
    rw [Hooks.counted_of_hook hpc hother hheld.flight,
      Hooks.counted_of_hook hown hother' hf'] at hin
    have hnet := hb.count x hx
    have hc := hcount x
    have hle : s'.inside x ≤ staQTokens := tally_le _ _ _
    unfold staQTokens at hle
    omega
  · intro hcl
    obtain ⟨hzero, hquiet⟩ := hb.alone hcl
    have hhost : s'.sent .host = s.sent .host := by
      cases h with
      | lan => exact hsent .host (by decide)
      | host =>
        have hg : g.isDone = true := by
          rw [hpc] at hquiet
          simpa [Pc.sending] using hquiet
        rw [hdones hg]
    refine ⟨fun x => ?_, ?_⟩
    · rw [hhost]
      exact hzero x
    · cases h with
      | lan => rw [show s'.pc .host = s.pc .host from hotherPc]; exact hquiet
      | host =>
        rw [hown]
        rw [hpc] at hquiet
        show (!g'.isDone) = false
        rw [hisDone]
        exact hquiet

/-- The hart leaves the hook and the token is free. -/
theorem Booked.finish (hb : Booked b s) (hpc : s.pc h = .hook g tok f tick)
    (hgone : f.station = none ∨ g.counted = false ∧ g.mapped = false)
    (hsent : s'.sent = s.sent) (hdone : s'.done = s.done) (hmap : s'.map = s.map)
    (hflight : s'.flight = Function.update s.flight tok none)
    (hchip : s'.inChip = Function.update s.inChip tok false)
    (hpc' : s'.pc = Function.update s.pc h .idle) : Booked b s' := by
  have hheld := hb.holds h g tok f tick hpc
  have hotherPc : s'.pc h.other = s.pc h.other := by
    rw [hpc']
    exact Function.update_of_ne h.other_ne _ _
  have hown : s'.pc h = .idle := by
    rw [hpc']
    exact Function.update_self _ _ _
  have hother : (s.pc h.other).token ≠ some tok := hb.other_token hpc
  have hfl (t : ℕ) (ht : t ≠ tok) : s'.flight t = s.flight t := by
    rw [hflight]
    exact Function.update_of_ne ht _ _
  have hch (t : ℕ) (ht : t ≠ tok) : s'.inChip t = s.inChip t := by
    rw [hchip]
    exact Function.update_of_ne ht _ _
  have hfree : s'.flight tok = none := by
    rw [hflight]
    exact Function.update_self _ _ _
  have holdTok (t : ℕ) (ht : t ≠ tok) : (s.pc h).token ≠ some t := by
    rw [hpc]
    exact fun heq => ht (Option.some.inj heq).symm
  have hidle (t : ℕ) : Pc.idle.token ≠ some t := Option.some_ne_none t |>.symm
  -- the frame is out of the books: no label, no entry
  have hlabel : g.label f = none := by
    unfold Stage.label
    rcases hgone with hnone | ⟨hg, _⟩
    · rw [hnone]
      exact ite_self none
    · rw [hg]
      rfl
  have hentry : g.entry f = staQNone := by
    unfold Stage.entry
    rcases hgone with hnone | ⟨_, hg⟩
    · rw [hnone]
      exact ite_self staQNone
    · rw [hg]
      rfl
  have hclear : s'.station tok = none := by
    unfold Hooks.station
    rw [hfree]
    rfl
  have hown' : (s'.pc h).token ≠ some tok := by
    rw [hown]
    exact hidle tok
  have hother' : (s'.pc h.other).token ≠ some tok := by
    rw [hotherPc]
    exact hother
  constructor
  · intro k g'' tok' f' tick' hk
    rcases h.eq_or_other k with rfl | rfl
    · rw [hown] at hk
      exact Pc.noConfusion hk
    · rw [hotherPc] at hk
      have hk' := hb.holds _ _ _ _ _ hk
      have hne : tok' ≠ tok := by
        rintro rfl
        rw [hk] at hother
        exact hother rfl
      exact hk'.congr (hfl _ hne) (hch _ hne) (congrFun hsent _) fun _ => hdone
  · apply apart_update hpc'
    intro hne
    exact absurd rfl hne
  · intro t f' ht
    rcases eq_or_ne t tok with rfl | hne
    · rw [hfree] at ht
      exact absurd ht.symm (Option.some_ne_none f')
    · rw [hfl t hne] at ht
      exact hb.pooled t f' ht
  · intro t ht
    rcases eq_or_ne t tok with rfl | hne
    · rw [hchip, Function.update_self] at ht
      exact Bool.noConfusion ht
    · rw [hch t hne] at ht
      rw [hfl t hne]
      exact hb.chip t ht
  · intro t
    rw [hmap]
    rcases eq_or_ne t tok with rfl | ht
    · rw [Hooks.named_of_clear h hown' hother', hclear, hb.map t,
        Hooks.named_of_hook hpc hother hheld.flight]
      exact hentry
    · rw [Hooks.named_away hpc' (holdTok t ht) (hidle t) (hfl t ht)]
      exact hb.map t
  · intro x hx
    have htok := hb.pooled tok f hheld.flight
    -- the sum changes at this token only, and there from none to none
    have hin := Hooks.inside_change (x := x) htok fun t ht =>
      Hooks.counted_away hpc' (holdTok t ht) (hidle t) (hfl t ht)
    rw [Hooks.counted_of_hook hpc hother hheld.flight, Hooks.counted_of_clear h hown' hother',
      hclear, hlabel] at hin
    have hnet : s'.net x = s.net x := by
      unfold Hooks.net
      rw [hsent, hdone]
    rw [hnet, hb.count x hx]
    omega
  · intro hcl
    obtain ⟨hzero, hquiet⟩ := hb.alone hcl
    refine ⟨fun x => ?_, ?_⟩
    · rw [hsent]
      exact hzero x
    · cases h with
      | lan => rw [show s'.pc .host = s.pc .host from hotherPc]; exact hquiet
      | host => rw [hown]; rfl

/-- The hart's place changes, or the probe does, but no hook is entered
    or left. -/
theorem Booked.aside {p : Pc} (hb : Booked b s) (hold : (s.pc h).token = none)
    (hnew : p.token = none) (hpc : s'.pc = Function.update s.pc h p)
    (hsent : s'.sent = s.sent) (hdone : s'.done = s.done) (hmap : s'.map = s.map)
    (hflight : s'.flight = s.flight) (hchip : s'.inChip = s.inChip)
    (halone : b.clanker = false → h = .host → p.sending = false) : Booked b s' := by
  have hotherPc : s'.pc h.other = s.pc h.other := by
    rw [hpc]
    exact Function.update_of_ne h.other_ne _ _
  have hown : s'.pc h = p := by
    rw [hpc]
    exact Function.update_self _ _ _
  have hold' (t : ℕ) : (s.pc h).token ≠ some t := by
    rw [hold]
    exact (Option.some_ne_none t).symm
  have hnew' (t : ℕ) : p.token ≠ some t := by
    rw [hnew]
    exact (Option.some_ne_none t).symm
  constructor
  · intro k g tok f tick hk
    rcases h.eq_or_other k with rfl | rfl
    · rw [hown] at hk
      rw [hk] at hnew
      exact absurd hnew (Option.some_ne_none tok)
    · rw [hotherPc] at hk
      exact (hb.holds _ _ _ _ _ hk).congr (congrFun hflight _) (congrFun hchip _)
        (congrFun hsent _) fun _ => hdone
  · apply apart_update hpc
    intro hne
    exact absurd hnew hne
  · intro t f ht
    rw [hflight] at ht
    exact hb.pooled t f ht
  · intro t ht
    rw [hchip] at ht
    rw [hflight]
    exact hb.chip t ht
  · intro t
    rw [hmap, Hooks.named_away hpc (hold' t) (hnew' t) (congrFun hflight t)]
    exact hb.map t
  · intro x hx
    -- no token is held before or after, so no term of the sum moves
    have hin : s'.inside x = s.inside x := tally_congr _ fun t _ =>
      Hooks.counted_away hpc (hold' t) (hnew' t) (congrFun hflight t)
    have hnet : s'.net x = s.net x := by
      unfold Hooks.net
      rw [hsent, hdone]
    rw [hin, hnet]
    exact hb.count x hx
  · intro hcl
    obtain ⟨hzero, hquiet⟩ := hb.alone hcl
    refine ⟨fun x => ?_, ?_⟩
    · rw [hsent]
      exact hzero x
    · cases h with
      | lan => rw [show s'.pc .host = s.pc .host from hotherPc]; exact hquiet
      | host => rw [hown]; exact halone hcl rfl

/-- A hart enters or leaves a hook of a token without touching the
    counters or the map. -/
theorem Booked.turn {p : Pc} (hb : Booked b s) (hpc : s'.pc = Function.update s.pc h p)
    (hold : ∀ t, t ≠ tok → (s.pc h).token ≠ some t) (hnew : ∀ t, t ≠ tok → p.token ≠ some t)
    (hother : (s.pc h.other).token ≠ some tok) (htok : tok < staQTokens)
    (hsent : s'.sent = s.sent) (hdone : s'.done = s.done) (hmap : s'.map = s.map)
    (hflight : ∀ t, t ≠ tok → s'.flight t = s.flight t)
    (hchip : ∀ t, t ≠ tok → s'.inChip t = s.inChip t)
    (hf : s'.inChip tok = true → s'.flight tok ≠ none)
    (hheld : ∀ g t f tick, p = .hook g t f tick → Holds s' h g t f)
    (hnamed : s'.named tok = s.named tok) (hcounted : s'.counted tok = s.counted tok)
    (halone : b.clanker = false → h = .host → p.sending = false) : Booked b s' := by
  have hotherPc : s'.pc h.other = s.pc h.other := by
    rw [hpc]
    exact Function.update_of_ne h.other_ne _ _
  have hown : s'.pc h = p := by
    rw [hpc]
    exact Function.update_self _ _ _
  constructor
  · intro k g t f tick hk
    rcases h.eq_or_other k with rfl | rfl
    · rw [hown] at hk
      exact hheld g t f tick hk
    · rw [hotherPc] at hk
      have hne : t ≠ tok := by
        rintro rfl
        rw [hk] at hother
        exact hother rfl
      exact (hb.holds _ _ _ _ _ hk).congr (hflight t hne) (hchip t hne) (congrFun hsent _)
        fun _ => hdone
  · apply apart_update hpc
    intro hne heq
    -- the other hart does not have the token
    rcases hp : p.token with _ | t
    · exact hne hp
    · rcases eq_or_ne t tok with rfl | ht
      · exact hother (heq.trans hp)
      · exact hnew t ht hp
  · intro t f ht
    rcases eq_or_ne t tok with rfl | hne
    · exact htok
    · rw [hflight t hne] at ht
      exact hb.pooled t f ht
  · intro t ht
    rcases eq_or_ne t tok with rfl | hne
    · exact hf ht
    · rw [hchip t hne] at ht
      rw [hflight t hne]
      exact hb.chip t ht
  · intro t
    rw [hmap]
    rcases eq_or_ne t tok with rfl | hne
    · rw [hnamed]
      exact hb.map t
    · rw [Hooks.named_away hpc (hold t hne) (hnew t hne) (hflight t hne)]
      exact hb.map t
  · intro x hx
    have hin : s'.inside x = s.inside x := by
      -- at the token by assumption, elsewhere nothing has moved
      apply tally_congr
      intro t _
      rcases eq_or_ne t tok with rfl | hne
      · exact hcounted
      · exact Hooks.counted_away hpc (hold t hne) (hnew t hne) (hflight t hne)
    have hnet : s'.net x = s.net x := by
      unfold Hooks.net
      rw [hsent, hdone]
    rw [hin, hnet]
    exact hb.count x hx
  · intro hcl
    obtain ⟨hzero, hquiet⟩ := hb.alone hcl
    refine ⟨fun x => ?_, ?_⟩
    · rw [hsent]
      exact hzero x
    · cases h with
      | lan => rw [show s'.pc .host = s.pc .host from hotherPc]; exact hquiet
      | host => rw [hown]; exact halone hcl rfl

/-! ## Accesses of the hooks -/

theorem natCast_u16 (z : ℤ) : (u16 z : ℤ) = z % 2 ^ 16 := by
  unfold u16
  omega

theorem Hooks.net_setSent (s : Hooks) (h : Sender) (y n x : ℕ) :
    (s.setSent h y n).net x = s.net x + if y = x then (n : ℤ) - s.sent h y else 0 := by
  unfold Hooks.net Hooks.setSent
  rcases eq_or_ne y x with rfl | hne
  · rw [if_pos rfl]
    cases h <;> simp <;> omega
  · rw [if_neg hne]
    cases h <;> simp [Function.update_of_ne hne.symm]

theorem Hooks.net_setDone (s : Hooks) (y n x : ℕ) :
    (s.setDone y n).net x = s.net x - if y = x then (n : ℤ) - s.done y else 0 := by
  unfold Hooks.net Hooks.setDone
  rcases eq_or_ne y x with rfl | hne
  · rw [if_pos rfl]
    simp
  · rw [if_neg hne]
    simp [Function.update_of_ne hne.symm]

theorem Stage.entry_of_mapped (hg : g.mapped = true) : g.entry f = f.station.getD staQNone := by
  unfold Stage.entry
  rw [hg]
  rfl

theorem Stage.entry_of_lt (hg : g.mapped = true) (hf : f.sta < staQStas) : g.entry f = f.sta := by
  rw [Stage.entry_of_mapped hg, Frame.station_of_lt hf]
  rfl

theorem Stage.label_of_lt (hg : g.counted = true) (hf : f.sta < staQStas) :
    g.label f = some f.sta := by
  unfold Stage.label
  rw [hg, Frame.station_of_lt hf]
  rfl

/-- What the map says of a token in a hook. -/
theorem Booked.map_of_hook (hb : Booked b s) (hpc : s.pc h = .hook g tok f tick) :
    s.map tok = g.entry f := by
  rw [hb.map tok]
  exact Hooks.named_of_hook hpc (hb.other_token hpc) (hb.holds _ _ _ _ _ hpc).flight

/-- An access that leaves the counters and the map alone. -/
theorem Booked.glance (hb : Booked b s) (hpc : s.pc h = .hook g tok f tick)
    (hpc' : s'.pc = Function.update s.pc h (.hook g' tok f tick))
    (hflight : s'.flight = s.flight) (hchip : s'.inChip = s.inChip)
    (hsent : s'.sent = s.sent) (hdone : s'.done = s.done) (hmap : s'.map = s.map)
    (hisDone : g'.isDone = g.isDone) (hcounted : g'.counted = g.counted)
    (hmapped : g'.mapped = g.mapped) (hfresh : g'.fresh s' h f) : Booked b s' := by
  apply hb.move hpc hpc' hflight hchip hisDone hfresh
  · intro k _
    exact congrFun hsent k
  · intro _
    exact hsent
  · intro _
    exact hdone
  · intro t _
    exact congrFun hmap t
  · rw [hmap, hb.map_of_hook hpc]
    unfold Stage.entry
    rw [hmapped]
  · intro x
    have hnet : s'.net x = s.net x := by
      unfold Hooks.net
      rw [hsent, hdone]
    unfold Stage.label
    rw [hnet, hcounted]

/-- The map's entry of the token is written. -/
theorem Booked.remap {v : ℕ} (hb : Booked b s) (hpc : s.pc h = .hook g tok f tick)
    (hisDone : g'.isDone = g.isDone) (hcounted : g'.counted = g.counted)
    (hfresh : g'.fresh s h f) (hv : v = g'.entry f) :
    Booked b ((s.setMap tok v).setPc h (.hook g' tok f tick)) := by
  have hpc' : ((s.setMap tok v).setPc h (.hook g' tok f tick)).pc =
      Function.update s.pc h (.hook g' tok f tick) := rfl
  apply hb.move hpc hpc' rfl rfl hisDone
  · exact Stage.fresh_congr rfl (fun _ => rfl) hfresh
  · intro _ _
    rfl
  · intro _
    rfl
  · intro _
    rfl
  · intro t ht
    exact Function.update_of_ne ht _ _
  · rw [← hv]
    exact Function.update_self _ _ _
  · intro x
    unfold Stage.label
    rw [hcounted]
    rfl

/-- A hart's own sent counter moves by one with the label of its token. -/
theorem Booked.recount {n : ℕ} (hb : Booked b s) (hpc : s.pc h = .hook g tok f tick)
    (hto : g' = .armLoad ∨ g' = .unProbe) (hdone : g.isDone = false)
    (hmapped : g'.mapped = g.mapped) (hlt : f.sta < staQStas)
    (hn : ((n : ℤ) - s.sent h f.sta + unit (g.label f) (some f.sta)) % 2 ^ 16 =
      (unit (g'.label f) (some f.sta) : ℤ) % 2 ^ 16) :
    Booked b ((s.setSent h f.sta n).setPc h (.hook g' tok f tick)) := by
  have hdone' : g'.isDone = false := by rcases hto with rfl | rfl <;> rfl
  have hfresh' : g'.fresh ((s.setSent h f.sta n).setPc h (.hook g' tok f tick)) h f := by
    rcases hto with rfl | rfl <;> exact hlt
  have hpc' : ((s.setSent h f.sta n).setPc h (.hook g' tok f tick)).pc =
      Function.update s.pc h (.hook g' tok f tick) := rfl
  apply hb.move hpc hpc' rfl rfl (hdone'.trans hdone.symm) hfresh'
  · intro k hk
    exact Function.update_of_ne hk _ _
  · intro hd
    rw [hdone] at hd
    exact absurd hd Bool.false_ne_true
  · intro _
    rfl
  · intro _ _
    rfl
  · show s.map tok = g'.entry f
    rw [hb.map_of_hook hpc]
    unfold Stage.entry
    rw [hmapped]
  · intro x
    show ((s.setSent h f.sta n).net x + unit (g.label f) (some x)) % 2 ^ 16 = _
    rw [Hooks.net_setSent]
    rcases eq_or_ne f.sta x with rfl | hne
    · -- at the station itself the counter and the label move by one together
      rw [if_pos rfl]
      omega
    · -- no label of the token is another station
      have hother (k : Stage) : unit (k.label f) (some x) = 0 := by
        apply unit_of_ne
        unfold Stage.label
        rw [Frame.station_of_lt hlt]
        split_ifs
        · exact fun heq => hne (Option.some.inj heq)
        · exact (Option.some_ne_none x).symm
      rw [if_neg hne, hother, hother]
      omega

/-- The done counter moves by one as the token loses its label. -/
theorem Booked.complete {n : ℕ} (hb : Booked b s)
    (hpc : s.pc h = .hook (.dnStore f.sta n) tok f tick) (hlt : f.sta < staQStas)
    (hn : n = s.done f.sta) :
    Booked b ((s.setDone f.sta (u16 (n + 1))).setPc h (.hook (.dnProbe f.sta) tok f tick)) := by
  have hpc' : ((s.setDone f.sta (u16 (n + 1))).setPc h (.hook (.dnProbe f.sta) tok f tick)).pc =
      Function.update s.pc h (.hook (.dnProbe f.sta) tok f tick) := rfl
  apply hb.move hpc hpc' rfl rfl rfl ⟨rfl, hlt⟩
  · intro _ _
    rfl
  · intro _
    rfl
  · intro hd
    exact Bool.noConfusion hd
  · intro _ _
    rfl
  · show s.map tok = _
    rw [hb.map_of_hook hpc]
    rfl
  · intro x
    show ((s.setDone f.sta (u16 (n + 1))).net x + unit _ (some x)) % 2 ^ 16 = _
    have hold : (Stage.dnStore f.sta n).label f = some f.sta := Stage.label_of_lt rfl hlt
    have hnew : (Stage.dnProbe f.sta).label f = none := rfl
    rw [Hooks.net_setDone, hold, hnew, unit_of_ne (Option.some_ne_none x).symm]
    have hu := natCast_u16 (n + 1)
    rcases eq_or_ne f.sta x with rfl | hne
    · rw [if_pos rfl, unit_self]
      omega
    · rw [if_neg hne, unit_of_ne (fun heq => hne (Option.some.inj heq)), sub_zero]

theorem Booked.hookStep (hb : Booked b s) (hpc : s.pc h = .hook g tok f tick)
    (hs : hookStep s h tok f tick g = some s') : Booked b s' := by
  have hheld := hb.holds h g tok f tick hpc
  have hfresh := hheld.fresh
  cases g with
  | sentMap =>
    cases hs
    exact hb.remap hpc rfl rfl hfresh (Stage.entry_of_lt rfl hfresh).symm
  | sentLoad =>
    cases hs
    exact hb.glance hpc rfl rfl rfl rfl rfl rfl rfl rfl rfl ⟨hfresh, rfl⟩
  | sentStore n =>
    cases hs
    obtain ⟨hlt, hn⟩ := hfresh
    apply hb.recount hpc (.inl rfl) rfl rfl hlt
    have hold : (Stage.sentStore n).label f = none := rfl
    have hnew : Stage.armLoad.label f = some f.sta := Stage.label_of_lt rfl hlt
    have hu := natCast_u16 (n + 1)
    rw [hold, hnew, unit_self, unit_of_ne (Option.some_ne_none f.sta).symm]
    omega
  | armLoad =>
    cases hs
    split_ifs
    · exact hb.glance hpc rfl rfl rfl rfl rfl rfl rfl rfl rfl hfresh
    · exact hb.glance hpc rfl rfl rfl rfl rfl rfl rfl rfl rfl trivial
  | armStore =>
    cases hs
    exact hb.glance hpc rfl rfl rfl rfl rfl rfl rfl rfl rfl trivial
  | filling => cases hs
  | unMap =>
    cases hs
    exact hb.remap hpc rfl rfl hfresh rfl
  | unLoad =>
    cases hs
    exact hb.glance hpc rfl rfl rfl rfl rfl rfl rfl rfl rfl ⟨hfresh, rfl⟩
  | unStore n =>
    cases hs
    obtain ⟨hlt, hn⟩ := hfresh
    apply hb.recount hpc (.inr rfl) rfl rfl hlt
    have hold : (Stage.unStore n).label f = some f.sta := Stage.label_of_lt rfl hlt
    have hnew : Stage.unProbe.label f = none := rfl
    have hu := natCast_u16 ((n : ℤ) - 1)
    rw [hold, hnew, unit_self, unit_of_ne (Option.some_ne_none f.sta).symm]
    omega
  | unProbe =>
    unfold StaQ.hookStep at hs
    dsimp only at hs
    split_ifs at hs with hp
    · cases hs
      exact hb.glance hpc rfl rfl rfl rfl rfl rfl rfl rfl rfl hfresh
    · cases hs
      exact hb.finish hpc (.inr ⟨rfl, rfl⟩) rfl rfl rfl rfl rfl rfl
  | unClear =>
    cases hs
    exact hb.finish hpc (.inr ⟨rfl, rfl⟩) rfl rfl rfl rfl rfl rfl
  | dnLoad =>
    have hmap : s.map tok = f.station.getD staQNone := hb.map_of_hook hpc
    unfold StaQ.hookStep at hs
    dsimp only at hs
    -- the map names the frame's station, or the frame has none
    rcases hst : f.station with _ | x
    · have hnone : ¬ s.map tok ≠ staQNone := by
        rw [hmap, hst]
        exact not_not.2 rfl
      rw [if_neg hnone] at hs
      cases hs
      exact hb.finish hpc (.inl hst) rfl rfl rfl rfl rfl rfl
    · have hx := Frame.station_lt hst
      have hlt : f.sta < staQStas := by
        unfold Frame.station at hst
        split_ifs at hst with hlt
        · exact hlt
      rw [Frame.station_of_lt hlt] at hmap
      have hne : s.map tok ≠ staQNone := by
        rw [hmap]
        show f.sta ≠ staQNone
        unfold staQStas at hlt
        unfold staQNone
        omega
      rw [if_pos hne, hmap] at hs
      cases hs
      exact hb.glance hpc rfl rfl rfl rfl rfl rfl rfl rfl rfl ⟨rfl, hlt⟩
  | dnMap sta =>
    cases hs
    exact hb.remap hpc rfl rfl hfresh rfl
  | dnCount sta =>
    cases hs
    exact hb.glance hpc rfl rfl rfl rfl rfl rfl rfl rfl rfl ⟨hfresh.1, hfresh.2, rfl⟩
  | dnStore sta n =>
    cases hs
    obtain ⟨rfl, hlt, hn⟩ := hfresh
    exact hb.complete hpc hlt hn
  | dnProbe sta =>
    unfold StaQ.hookStep at hs
    dsimp only at hs
    split_ifs at hs with hp
    · cases hs
      exact hb.glance hpc rfl rfl rfl rfl rfl rfl rfl rfl rfl hfresh
    · cases hs
      exact hb.finish hpc (.inr ⟨rfl, rfl⟩) rfl rfl rfl rfl rfl rfl
  | dnDelay sta w =>
    cases hs
    exact hb.glance hpc rfl rfl rfl rfl rfl rfl rfl rfl rfl hfresh
  | dnClear sta =>
    cases hs
    exact hb.finish hpc (.inr ⟨rfl, rfl⟩) rfl rfl rfl rfl rfl rfl

/-! ## Every step -/

theorem Booked.init (b : QBuild) : Booked b staQInit where
  holds := fun _ _ _ _ _ hk => Pc.noConfusion hk
  apart := fun _ hne => absurd rfl hne
  pooled := fun _ _ ht => absurd ht.symm (Option.some_ne_none _)
  chip := fun _ ht => Bool.noConfusion ht
  map := fun _ => rfl
  count := by
    intro x _
    have hzero : staQInit.inside x = 0 := by
      apply tally_eq_zero
      intro i _
      exact (Option.some_ne_none x).symm
    rw [hzero]
    rfl
  alone := fun _ => ⟨fun _ => rfl, rfl⟩

/-- A place of a hart outside the hooks. -/
theorem Booked.place {p : Pc} (hb : Booked b s) (hold : (s.pc h).token = none)
    (hnew : p.token = none) (halone : b.clanker = false → h = .host → p.sending = false) :
    Booked b (s.setPc h p) :=
  hb.aside hold hnew rfl rfl rfl rfl rfl rfl halone

/-- A sender's place is never the host's in the default build. -/
theorem Booked.sending_of (hb : Booked b s) {p : Pc} (hpc : (s.pc h).sending = true) :
    b.clanker = false → h = .host → p.sending = false := by
  rintro hcl rfl
  rw [(hb.alone hcl).2] at hpc
  exact absurd hpc Bool.false_ne_true

theorem Booked.begin (hb : Booked b s) (hs : beginStep b s h sta = some s') : Booked b s' := by
  unfold beginStep at hs
  split_ifs at hs with hidle hon
  all_goals
    cases hs
    obtain ⟨hpc, hwho⟩ := hidle
    apply hb.place (by rw [hpc]; rfl) rfl
    rintro hcl rfl
    rw [hcl] at hwho
    rcases hwho with hlan | hfalse
    · exact absurd hlan (by decide)
    · exact absurd hfalse Bool.false_ne_true

theorem Booked.load {c : Counter} (hb : Booked b s) (hs : loadStep s h c = some s') :
    Booked b s' := by
  unfold loadStep at hs
  split at hs
  case h_4 => cases hs
  all_goals
    next hpc =>
      cases hs
      exact hb.place (by rw [hpc]; rfl) rfl (hb.sending_of (by rw [hpc]; rfl))

theorem Booked.decide (hb : Booked b s) (hs : decideStep b s h = some s') : Booked b s' := by
  unfold decideStep at hs
  split at hs
  · next hpc =>
      cases hs
      apply hb.place (by rw [hpc]; rfl)
      · split_ifs <;> rfl
      · exact hb.sending_of (by rw [hpc]; rfl)
  · cases hs

theorem Booked.look {now : ℕ} (hb : Booked b s) (hs : lookStep s h now = some s') :
    Booked b s' := by
  unfold lookStep at hs
  split at hs
  · next hpc =>
      split_ifs at hs
      cases hs
      exact hb.place (by rw [hpc]; rfl) rfl (hb.sending_of (by rw [hpc]; rfl))
  · cases hs

theorem Booked.giveUp (hb : Booked b s) (hs : giveUpStep s h = some s') : Booked b s' := by
  unfold giveUpStep at hs
  split at hs
  · next hpc =>
      cases hs
      exact hb.place (by rw [hpc]; rfl) rfl (hb.sending_of (by rw [hpc]; rfl))
  · cases hs

/-- A free token is in no hart's hook. -/
theorem Booked.token_of_free (hb : Booked b s) (hfree : s.flight tok = none) (h : Sender) :
    (s.pc h).token ≠ some tok := by
  rcases hpc : s.pc h with _ | _ | _ | _ | _ | ⟨g, t, f, tick⟩
  case hook =>
    intro heq
    have ht : t = tok := Option.some.inj heq
    have hheld := (hb.holds h g t f tick hpc).flight
    rw [ht, hfree] at hheld
    exact Option.some_ne_none f hheld.symm
  all_goals exact (Option.some_ne_none tok).symm

theorem Frame.firstStage_label (f : Frame) : f.firstStage.label f = none := by
  unfold Frame.firstStage
  rcases em (f.sta < staQStas) with hlt | hlt
  · rw [if_pos hlt]
    rfl
  · have hnone : f.station = none := if_neg hlt
    rw [if_neg hlt]
    exact hnone

theorem Frame.firstStage_entry (f : Frame) : f.firstStage.entry f = staQNone := by
  unfold Frame.firstStage
  rcases em (f.sta < staQStas) with hlt | hlt
  · rw [if_pos hlt]
    rfl
  · have hnone : f.station = none := if_neg hlt
    rw [if_neg hlt, Stage.entry_of_mapped rfl, hnone]
    rfl

theorem Frame.firstStage_isDone (f : Frame) : f.firstStage.isDone = false := by
  unfold Frame.firstStage
  split_ifs <;> rfl

theorem Frame.firstStage_fresh (f : Frame) : f.firstStage.fresh s h f := by
  unfold Frame.firstStage
  split_ifs with hlt
  · exact hlt
  · trivial

theorem Booked.carry (hb : Booked b s) (hold : (s.pc h).token = none)
    (hsend : (s.pc h).sending = true) (hfree : s.flight tok = none) (htok : tok < staQTokens) :
    Booked b (s.carry h tok f) := by
  have hpc' : (s.carry h tok f).pc = Function.update s.pc h (.hook f.firstStage tok f 0) := rfl
  have hown : (s.carry h tok f).pc h = .hook f.firstStage tok f 0 := Function.update_self _ _ _
  have hother := hb.token_of_free hfree h.other
  have hother' : ((s.carry h tok f).pc h.other).token ≠ some tok := by
    rw [hpc', Function.update_of_ne h.other_ne]
    exact hother
  have hf : (s.carry h tok f).flight tok = some f := Function.update_self _ _ _
  have hnone : s.station tok = none := by
    unfold Hooks.station
    rw [hfree]
    rfl
  -- a free token is not in the chip and no hook's
  have hchip : s.inChip tok = false := by
    by_contra hc
    exact hb.chip tok (by simpa using hc) hfree
  have hclear := hb.token_of_free hfree h
  apply hb.turn hpc' _ _ hother htok rfl rfl rfl _ (fun _ _ => rfl) _ _ _ _
    (hb.sending_of hsend)
  · intro t _
    rw [hold]
    exact (Option.some_ne_none t).symm
  · intro t ht heq
    exact ht (Option.some.inj heq).symm
  · intro t ht
    exact Function.update_of_ne ht _ _
  · intro _
    rw [hf]
    exact Option.some_ne_none f
  · intro g t f' tick hk
    injection hk with e1 e2 e3 e4
    subst e1 e2 e3
    have hd := f.firstStage_isDone
    exact ⟨hf, hchip.trans hd.symm, fun hd' => absurd (hd.symm.trans hd') Bool.false_ne_true,
      f.firstStage_fresh⟩
  · rw [Hooks.named_of_hook hown hother' hf, Hooks.named_of_clear h hclear hother, hnone]
    exact f.firstStage_entry
  · rw [Hooks.counted_of_hook hown hother' hf, Hooks.counted_of_clear h hclear hother, hnone]
    exact f.firstStage_label

theorem Booked.take {now : ℕ} (hb : Booked b s) (hs : takeStep s h tok now = some s') :
    Booked b s' := by
  unfold takeStep at hs
  split at hs
  · next hpc =>
      split_ifs at hs with hfree
      cases hs
      exact hb.carry (by rw [hpc]; rfl) (by rw [hpc]; rfl) hfree.1 hfree.2
  · cases hs

theorem Booked.publish (hb : Booked b s) (hs : publishStep s h = some s') : Booked b s' := by
  unfold publishStep at hs
  split at hs
  case h_2 => cases hs
  case h_1 tok f tick hpc =>
    cases hs
    have hheld := hb.holds _ _ _ _ _ hpc
    have hother := hb.other_token hpc
    have hpc' : (s.publish h tok).pc = Function.update s.pc h .idle := rfl
    have hclear : ((s.publish h tok).pc h).token ≠ some tok := by
      rw [hpc', Function.update_self]
      exact (Option.some_ne_none tok).symm
    have hother' : ((s.publish h tok).pc h.other).token ≠ some tok := by
      rw [hpc', Function.update_of_ne h.other_ne]
      exact hother
    -- the hook hands the token to its station, with label and entry
    have hst : (s.publish h tok).station tok = f.station := by
      show (s.flight tok).bind Frame.station = _
      rw [hheld.flight]
      rfl
    apply hb.turn hpc' _ _ hother (hb.pooled tok f hheld.flight) rfl rfl rfl (fun _ _ => rfl) _
      _ _ _ _ fun _ _ => rfl
    · intro t ht
      rw [hpc]
      exact fun heq => ht (Option.some.inj heq).symm
    · intro t _
      exact (Option.some_ne_none t).symm
    · intro t ht
      exact Function.update_of_ne ht _ _
    · intro _
      show s.flight tok ≠ none
      rw [hheld.flight]
      exact Option.some_ne_none f
    · intro _ _ _ _ hk
      exact Pc.noConfusion hk
    · rw [Hooks.named_of_clear h hclear hother', Hooks.named_of_hook hpc hother hheld.flight, hst]
      rfl
    · rw [Hooks.counted_of_clear h hclear hother', Hooks.counted_of_hook hpc hother hheld.flight,
        hst]
      rfl

theorem Booked.unsend (hb : Booked b s) (hs : unsendStep s h = some s') : Booked b s' := by
  unfold unsendStep at hs
  split at hs
  · next hpc =>
      cases hs
      split_ifs with hlt
      · exact hb.glance hpc rfl rfl rfl rfl rfl rfl rfl rfl rfl hlt
      · exact hb.finish hpc (.inl (if_neg hlt)) rfl rfl rfl rfl rfl rfl
  · cases hs

theorem Booked.report {now : ℕ} (hb : Booked b s) (hs : reportStep s tok now = some s') :
    Booked b s' := by
  unfold reportStep at hs
  split at hs
  case h_2 => cases hs
  case h_1 f hf =>
    split_ifs at hs with hpc
    cases hs
    obtain ⟨hpc, hchip⟩ := hpc
    -- a token in the chip is in no sender's hook
    have hother : (s.pc .lan).token ≠ some tok := by
      intro heq
      rcases hl : s.pc .lan with _ | _ | _ | _ | _ | ⟨g, t, f', tick⟩
      case hook =>
        rw [hl] at heq
        have ht : t = tok := Option.some.inj heq
        have hheld := hb.holds _ _ _ _ _ hl
        have hc := hheld.chip
        rw [ht, hchip] at hc
        exact Sender.noConfusion (hheld.done hc.symm)
      all_goals
        rw [hl] at heq
        exact Option.some_ne_none tok heq.symm
    have hclear : (s.pc .host).token ≠ some tok := by
      rw [hpc]
      exact (Option.some_ne_none tok).symm
    have hpc' : (s.setPc .host (.hook .dnLoad tok f (tickOf now))).pc =
      Function.update s.pc .host (.hook .dnLoad tok f (tickOf now)) := rfl
    have hown : (s.setPc .host (.hook .dnLoad tok f (tickOf now))).pc .host =
      .hook .dnLoad tok f (tickOf now) := rfl
    have hother' : ((s.setPc .host (.hook .dnLoad tok f (tickOf now))).pc .lan).token ≠ some tok :=
      hother
    have hst : s.station tok = f.station := by
      unfold Hooks.station
      rw [hf]
      rfl
    apply hb.turn hpc' _ _ hother (hb.pooled tok f hf) rfl rfl rfl (fun _ _ => rfl)
      (fun _ _ => rfl) _ _ _ _ fun _ _ => rfl
    · intro t _
      rw [hpc]
      exact (Option.some_ne_none t).symm
    · intro t ht heq
      exact ht (Option.some.inj heq).symm
    · intro _
      show s.flight tok ≠ none
      rw [hf]
      exact Option.some_ne_none f
    · intro g t f' tick hk
      injection hk with e1 e2 e3 e4
      subst e1 e2 e3
      exact ⟨hf, hchip, fun _ => rfl, trivial⟩
    · rw [Hooks.named_of_hook hown hother' hf, Hooks.named_of_clear .host hclear hother, hst]
      rfl
    · rw [Hooks.counted_of_hook hown hother' hf, Hooks.counted_of_clear .host hclear hother, hst]
      rfl

theorem Booked.next (hb : Booked b s) (hs : nextStep s h = some s') : Booked b s' := by
  unfold nextStep at hs
  split at hs
  · next hpc => exact hb.hookStep hpc hs
  · next hpc =>
      cases hs
      apply hb.place (by rw [hpc]; rfl)
      · split_ifs <;> rfl
      · exact hb.sending_of (by rw [hpc]; rfl)
  · next hpc =>
      cases hs
      exact hb.aside (by rw [hpc]; rfl) rfl rfl rfl rfl rfl rfl rfl
        (hb.sending_of (by rw [hpc]; rfl))
  · cases hs

theorem Booked.step {a : HookAction} (hb : Booked b s) (hs : hooksStep b s a = some s') :
    Booked b s' := by
  cases a with
  | begin h sta => exact hb.begin hs
  | load h c => exact hb.load hs
  | decide h => exact hb.decide hs
  | look h now => exact hb.look hs
  | giveUp h => exact hb.giveUp hs
  | take h tok now => exact hb.take hs
  | publish h => exact hb.publish hs
  | unsend h => exact hb.unsend hs
  | report tok now => exact hb.report hs
  | next h => exact hb.next hs

theorem booked_of_reachable (hr : (hooksSystem b).Reachable s) : Booked b s := by
  refine hr.invariant ?_ ?_
  · intro s0 h0
    rw [show s0 = staQInit from h0]
    exact Booked.init b
  · intro _ _ _ hinv hstep
    exact hinv.step hstep

/-- What the decision reads as a station's queue is what is inside the
    chip and counted. -/
theorem Booked.queued_eq (hb : Booked b s) (hsta : sta < staQStas) :
    s.queued b sta = s.inside sta := by
  have hnet : s.queued b sta = u16 (s.net sta) := by
    unfold Hooks.queued Hooks.net
    split_ifs with hcl
    · rfl
    · rw [(hb.alone (by simpa using hcl)).1 sta, Nat.cast_zero, add_zero]
  have hcount := hb.count sta hsta
  have hcast := natCast_u16 (s.net sta)
  rw [hnet]
  omega

theorem inside_le (s : Hooks) (sta : ℕ) : s.inside sta ≤ staQTokens := tally_le _ _ _

/-! ## At rest -/

theorem Pc.counted_of_quiet {p : Pc} (hq : p.quiet = true) (tok : ℕ) :
    p.uncounted tok = false ∧ p.unmapped tok = false := by
  rcases p with _ | _ | _ | _ | _ | ⟨g, t, f, tick⟩
  case hook =>
    have hg : g = .filling := by simpa [Pc.quiet] using hq
    subst hg
    constructor <;> exact Bool.and_false _
  all_goals exact ⟨rfl, rfl⟩

theorem Hooks.counted_of_quiet (hq : ∀ h, (s.pc h).quiet = true) (tok : ℕ) :
    s.counted tok = s.station tok := by
  unfold Hooks.counted
  rw [(Pc.counted_of_quiet (hq .lan) tok).1, (Pc.counted_of_quiet (hq .host) tok).1]
  rfl

theorem Booked.map_of_quiet (hb : Booked b s) (hq : ∀ h, (s.pc h).quiet = true) (tok : ℕ) :
    s.map tok = (s.station tok).getD staQNone := by
  rw [hb.map tok]
  unfold Hooks.named
  rw [(Pc.counted_of_quiet (hq .lan) tok).2, (Pc.counted_of_quiet (hq .host) tok).2]
  rfl

/-- The map assigns a token to a tracked station exactly when it carries
    a frame of that station. -/
theorem Booked.map_eq_iff (hb : Booked b s) (hq : ∀ h, (s.pc h).quiet = true)
    (hsta : sta < staQStas) (tok : ℕ) : s.map tok = sta ↔ s.counted tok = some sta := by
  rw [hb.map_of_quiet hq, Hooks.counted_of_quiet hq]
  rcases s.station tok with _ | x
  · constructor
    · intro heq
      have hne : staQNone = sta := heq
      unfold staQNone at hne
      unfold staQStas at hsta
      omega
    · intro heq
      exact absurd heq.symm (Option.some_ne_none sta)
  · constructor
    · intro heq
      exact congrArg some heq
    · intro heq
      exact Option.some.inj heq

/-- At every point of every run where no hook is half-way, a station's
    counters are apart by the number of tokens the map assigns to it,
    modulo 2^16, which is never negative as `s16`, and a free token is
    assigned to no station. -/
theorem accounting_exact (b : QBuild) (s : Hooks) (hr : (hooksSystem b).Reachable s)
    (hq : ∀ h, (s.pc h).quiet = true) :
    (∀ sta < staQStas, s.queued b sta = s.assigned sta ∧ 0 ≤ s16 (s.queued b sta)) ∧
      ∀ tok, s.flight tok = none → s.map tok = staQNone := by
  have hb := booked_of_reachable hr
  constructor
  · intro sta hsta
    have hle := inside_le s sta
    have hassigned : s.assigned sta = s.inside sta :=
      tally_eq_of_iff fun tok _ => hb.map_eq_iff hq hsta tok
    rw [hb.queued_eq hsta, hassigned]
    refine ⟨rfl, ?_⟩
    unfold staQTokens at hle
    rw [s16_of_lt (by omega)]
    omega
  · intro tok hfree
    rw [hb.map_of_quiet hq]
    unfold Hooks.station
    rw [hfree]
    rfl

/-- The default build with the limit `sta_q_init` sets. -/
def defaultBuild : QBuild := ⟨false, ⟨8192, 0, 72000000, 7200000, 64, 256⟩⟩

/-- One frame of a station through all its hooks, up to the chip. -/
def oneSent : List HookAction :=
  [.begin .lan 5, .load .lan .own, .load .lan .done, .decide .lan, .take .lan 77 0x12345678,
    .next .lan, .next .lan, .next .lan, .next .lan, .next .lan, .publish .lan]

/-- The token is mapped and the station's queue is one frame long. -/
theorem oneSent_end : (StepSystem.run (hooksStep defaultBuild) (fun _ _ => true) staQInit
    oneSent).map (fun s => ((s.map 77, s.queued defaultBuild 5), s.pc .lan, s.pc .host)) =
    some ((5, 1), .idle, .idle) := by
  decide +kernel

theorem accounting_exact_oneSent : ∃ s : Hooks, s.map 77 = 5 ∧ s.queued defaultBuild 5 = 1 ∧
    (∀ sta < staQStas, s.queued defaultBuild sta = s.assigned sta ∧
      0 ≤ s16 (s.queued defaultBuild sta)) ∧
    ∀ tok, s.flight tok = none → s.map tok = staQNone := by
  obtain ⟨s, hs, hend⟩ := Option.map_eq_some_iff.mp oneSent_end
  simp only [Prod.mk.injEq] at hend
  obtain ⟨⟨hmap, hqueued⟩, hlan, hhost⟩ := hend
  refine ⟨s, hmap, hqueued, accounting_exact defaultBuild s ?_ ?_⟩
  · exact .of_run (fun _ _ _ _ hstep => hstep) (.init rfl) hs
  · intro h
    cases h with
    | lan => rw [hlan]; rfl
    | host => rw [hhost]; rfl

end ClankerNPU.StaQ
