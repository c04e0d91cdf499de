import ClankerNPU.EagleTx.Tokens

/-! # Runs with empty frames

    The invariant of the transmit path is one of runs in which every
    staged host frame has a length. Any other run is followed by a padded
    state: there a frame of length zero has length one, and the token
    `eagle_tx_ring_push` drops with it is at the chip. The padded state
    keeps the invariant, and the state itself holds no token the padded
    one does not hold. -/

open scoped BigOperators

namespace ClankerNPU.EagleTx

open Circular Bufid Custody

variable {pkt : ℕ} {s s' : TxState} {stage : StageKey → StageEntry} {lost : Multiset ℕ}

/-! ## The system -/

/-- The chip reports tokens it holds, in a report of any form. -/
def ReportsHeld (s : TxState) : Core3Action → Prop
  | .report r => (r.listed : Multiset ℕ) ≤ s.chip
  | _ => True

/-- Cores 2 and 3 interleave and host frames have any length. -/
def stagingSystem (pkt : ℕ) : StepSystem TxState TxAction where
  init := ResetStart pkt
  step := fun s a s' =>
    match a with
    | .core2 a => core2Step pkt s a = some s'
    | .core3 a => ReportsHeld s a ∧ core3Step pkt s a = some s'

/-! ## The padded state -/

def padLen (len : ℕ) : ℕ := if len = 0 then 1 else len

theorem padLen_ne (len : ℕ) : padLen len ≠ 0 := by
  unfold padLen
  split <;> omega

theorem padLen_of_ne {len : ℕ} (h : len ≠ 0) : padLen len = len := if_neg h

/-- The frame core 3 stages has a length in the padded state. -/
def Core3Pc.padded : Core3Pc → Core3Pc
  | .stage k len => .stage k (padLen len)
  | .stageAlloc k len => .stageAlloc k (padLen len)
  | .stageTok k len token => .stageTok k (padLen len) token
  | .stageCopy k len token => .stageCopy k (padLen len) token
  | c3 => c3

@[simp] theorem Core3Pc.padded_held (c3 : Core3Pc) : c3.padded.held = c3.held := by
  cases c3 <;> rfl

/-- `s` with the entries `stage`, and with `lost` at the chip as well. -/
def TxState.padded (s : TxState) (stage : StageKey → StageEntry) (lost : Multiset ℕ) : TxState :=
  { s with stage := stage, chip := s.chip + lost, core3 := s.core3.padded }

/-- An entry and its padded one differ in an empty frame's length and in
    the address. -/
structure Pads (e f : StageEntry) : Prop where
  own : f.own = e.own
  token : f.token = e.token
  len : e.len ≠ 0 → f.len = e.len

/-- The entry whose length core 3 has recorded and whose frame it has not
    copied yet, with the length. -/
def Core3Pc.written : Core3Pc → Option (StageKey × ℕ)
  | .stageAlloc k len | .stageTok k len _ | .stageCopy k len _ => some (k, len)
  | _ => none

/-- The entry whose frame core 3 has copied. -/
def Core3Pc.copied : Core3Pc → Option StageKey
  | .stageOwn k _ => some k
  | _ => none

/-- `stage` and `lost` pad the state `s`. -/
structure PaddedBy (pkt : ℕ) (s : TxState) (stage : StageKey → StageEntry)
    (lost : Multiset ℕ) : Prop where
  pads : ∀ k, Pads (s.stage k) (stage k)
  /-- a frame with a length has its own address from the copy on -/
  buf : ∀ k, (s.stage k).own = 1 ∨ s.core3.copied = some k → (s.stage k).len ≠ 0 →
    (stage k).buf = (s.stage k).buf
  written : ∀ k len, s.core3.written = some (k, len) → (s.stage k).len = len
  pushes : ∀ k, s.core2 = .pushTok k → (s.stage k).len ≠ 0
  inv : TxInv pkt (s.padded stage lost)

/-- Some staging area and some lost tokens pad the state. -/
def Padded (pkt : ℕ) (s : TxState) : Prop := ∃ stage lost, PaddedBy pkt s stage lost

theorem pads_update {old new : StageKey → StageEntry} {e f : StageEntry}
    (h : ∀ k, Pads (old k) (new k)) (k : StageKey) (hk : Pads e f) (i : StageKey) :
    Pads (Function.update old k e i) (Function.update new k f i) := by
  by_cases hi : i = k
  · subst hi
    simpa using hk
  · simpa [Function.update_of_ne hi] using h i

/-- A step that touches no entry. -/
theorem PaddedBy.still (h : PaddedBy pkt s stage lost) {left : Multiset ℕ}
    (hstage : s'.stage = s.stage)
    (hcopied : ∀ k, s'.core3.copied = some k → s.core3.copied = some k)
    (hwritten : ∀ k len, s'.core3.written = some (k, len) → s.core3.written = some (k, len))
    (hpush : ∀ k, s'.core2 = .pushTok k → s.core2 = .pushTok k)
    (hinv : TxInv pkt (s'.padded stage left)) : PaddedBy pkt s' stage left := by
  refine ⟨?_, ?_, ?_, ?_, hinv⟩
  · intro k
    rw [hstage]
    exact h.pads k
  · intro k hown hlen
    rw [hstage] at hown hlen ⊢
    exact h.buf k (hown.imp_right (hcopied k)) hlen
  · intro k len hk
    rw [hstage]
    exact h.written k len (hwritten k len hk)
  · intro k hk
    rw [hstage]
    exact h.pushes k (hpush k hk)

/-- A step that writes one entry; what the other core knows is about
    another one. -/
theorem PaddedBy.entry (h : PaddedBy pkt s stage lost) (k : StageKey) {e f : StageEntry}
    (hstage : s'.stage = Function.update s.stage k e) (hpads : Pads e f)
    (hbuf : e.own = 1 ∨ s'.core3.copied = some k → e.len ≠ 0 → f.buf = e.buf)
    (hcopied : ∀ i, i ≠ k → s'.core3.copied = some i → s.core3.copied = some i)
    (hlen : ∀ len, s'.core3.written = some (k, len) → e.len = len)
    (hwritten : ∀ i len, i ≠ k → s'.core3.written = some (i, len) →
      s.core3.written = some (i, len))
    (hpush : ∀ i, s'.core2 = .pushTok i → i ≠ k ∧ s.core2 = .pushTok i)
    (hinv : TxInv pkt (s'.padded (Function.update stage k f) lost)) :
    PaddedBy pkt s' (Function.update stage k f) lost := by
  refine ⟨?_, ?_, ?_, ?_, hinv⟩
  · rw [hstage]
    exact pads_update h.pads k hpads
  · intro i hown hne
    rw [hstage] at hown hne ⊢
    -- at the entry by assumption, elsewhere as before
    by_cases hi : i = k
    · subst hi
      rw [Function.update_self] at hown hne
      rw [Function.update_self, Function.update_self]
      exact hbuf hown hne
    · rw [Function.update_of_ne hi] at hown hne
      rw [Function.update_of_ne hi, Function.update_of_ne hi]
      exact h.buf i (hown.imp_right (hcopied i hi)) hne
  · intro i len hw
    rw [hstage]
    by_cases hi : i = k
    · subst hi
      rw [Function.update_self]
      exact hlen len hw
    · rw [Function.update_of_ne hi]
      exact h.written i len (hwritten i len hi hw)
  · intro i hpc
    obtain ⟨hi, hpc⟩ := hpush i hpc
    rw [hstage, Function.update_of_ne hi]
    exact h.pushes i hpc

/-! ## Core 2 -/

/-- The steps of `eagle_tdma_to_wifi`. -/
def Core2Action.tdma : Core2Action → Bool
  | .pushStart _ | .give _ | .clear | .clearOwn => false
  | _ => true

/-- A step of `eagle_tdma_to_wifi` touches no entry and is the same in
    the padded state. -/
theorem tdma_padded {a : Core2Action} (ha : a.tdma = true) (hstep : core2Step pkt s a = some s') :
    core2Step pkt (s.padded stage lost) a = some (s'.padded stage lost) ∧
      s'.stage = s.stage ∧ s'.core3 = s.core3 ∧ ∀ k, s'.core2 ≠ .pushTok k := by
  -- one action after the other: none reads a staged entry
  cases a with
  | tdmaStart ring budget =>
    cases hpc : s.core2 with
    | idle =>
      simp only [core2Step, tdmaStart, hpc, Option.some.injEq] at hstep
      subst hstep
      simp [core2Step, tdmaStart, TxState.padded, hpc]
    | _ => simp [core2Step, tdmaStart, hpc] at hstep
  | head filled drop ready =>
    cases hpc : s.core2 with
    | tdma t =>
      simp only [core2Step, tdmaHead, TxState.padded, hpc] at hstep ⊢
      grind
    | _ => simp [core2Step, tdmaHead, hpc] at hstep
  | alloc =>
    cases hpc : s.core2 with
    | tdmaAlloc t =>
      simp only [core2Step, tdmaAlloc, TxState.padded, hpc] at hstep ⊢
      grind
    | _ => simp [core2Step, tdmaAlloc, hpc] at hstep
  | take =>
    cases hpc : s.core2 with
    | tdmaTaken t =>
      simp only [core2Step, tdmaTake, TxState.padded, hpc] at hstep ⊢
      grind
    | _ => simp [core2Step, tdmaTake, hpc] at hstep
  | fill ok =>
    cases hpc : s.core2 with
    | tdmaFill t tok =>
      simp only [core2Step, tdmaFill, TxState.padded, hpc] at hstep ⊢
      grind [Multiset.cons_add]
    | _ => simp [core2Step, tdmaFill, hpc] at hstep
  | free =>
    cases hpc : s.core2 with
    | tdmaFree t tok =>
      simp only [core2Step, core2Free, TxState.padded, hpc] at hstep ⊢
      grind
    | tdmaFreeN t =>
      simp only [core2Step, core2Free, TxState.padded, hpc] at hstep ⊢
      grind
    | _ => simp [core2Step, core2Free, hpc] at hstep
  | next =>
    cases hpc : s.core2 with
    | tdmaNext t stop =>
      simp only [core2Step, tdmaNext, TxState.padded, hpc] at hstep ⊢
      grind
    | _ => simp [core2Step, tdmaNext, hpc] at hstep
  | finish =>
    cases hpc : s.core2 with
    | tdmaEnd t =>
      simp only [core2Step, tdmaFinish, TxState.padded, hpc] at hstep ⊢
      grind
    | _ => simp [core2Step, tdmaFinish, hpc] at hstep
  | _ => cases ha

/-- `eagle_tx_ring_push` looks at its entry. A frame without a length is
    dropped with its token; the padded one goes to the chip at once. -/
theorem padded_pushStart {band : Fin 2} (h : PaddedBy pkt s stage lost) (hpc : s.core2 = .idle)
    (hstep : pushStart s band = some s') : Padded pkt s' := by
  have hpads := h.pads (band, s.stageRidx band)
  have hpc' : (s.padded stage lost).core2 = .idle := hpc
  simp only [pushStart, hpc] at hstep
  split at hstep
  · obtain rfl := Option.some.inj hstep
    exact ⟨stage, lost, h⟩
  next hown =>
  have hown : (stage (band, s.stageRidx band)).own = 1 := by
    rw [hpads.own]
    exact not_not.mp hown
  split at hstep
  · next hgo =>
    obtain rfl := Option.some.inj hstep
    have hsame : pushStart (s.padded stage lost) band
        = some ({ s with core2 := .pushTok (band, s.stageRidx band) }.padded stage lost) := by
      simp only [pushStart, TxState.padded, hpc]
      rw [if_neg (not_not.mpr hown), hpads.token, hpads.len hgo.2, if_pos hgo]
    refine ⟨stage, lost, h.pads, h.buf, h.written, ?_, txInv_pushStart h.inv hpc' hsame⟩
    intro k hk
    obtain rfl := Core2Pc.pushTok.inj hk
    exact hgo.2
  · next hskip =>
    obtain rfl := Option.some.inj hstep
    have hdrop : ∀ left, TxInv pkt ({ s with
        core2 := .pushClear (band, s.stageRidx band) }.padded stage left) → Padded pkt { s with
        core2 := .pushClear (band, s.stageRidx band) } := by
      intro left hinv
      exact ⟨stage, left, h.still rfl (fun _ => id) (fun _ _ => id) (fun _ hk => by cases hk) hinv⟩
    by_cases hgo : (stage (band, s.stageRidx band)).token < 2 ^ 15 ∧
        (stage (band, s.stageRidx band)).len ≠ 0
    · -- the padded frame has a length: two steps of core 2 pass it on
      have hpush : pushStart (s.padded stage lost) band
          = some { s.padded stage lost with core2 := .pushTok (band, s.stageRidx band) } := by
        simp only [pushStart, TxState.padded, hpc]
        rw [if_neg (not_not.mpr hown), if_pos hgo]
      have hinv := txInv_pushStart h.inv hpc' hpush
      have hgive := @txInv_give _ _ _ _ false hinv rfl rfl
      refine hdrop
        (chipId (pushWord pkt false (stage (band, s.stageRidx band)).buf) ::ₘ lost) ?_
      simpa [TxState.padded] using hgive
    · have hsame : pushStart (s.padded stage lost) band = some ({ s with
          core2 := .pushClear (band, s.stageRidx band) }.padded stage lost) := by
        simp only [pushStart, TxState.padded, hpc]
        rw [if_neg (not_not.mpr hown), if_neg hgo]
      exact hdrop lost (txInv_pushStart h.inv hpc' hsame)

theorem padded_give {k : StageKey} {mac : Bool} (h : PaddedBy pkt s stage lost)
    (hpc : s.core2 = .pushTok k) (hstep : pushGive pkt s mac = some s') : Padded pkt s' := by
  have hpc' : (s.padded stage lost).core2 = .pushTok k := hpc
  have hown : (stage k).own = 1 := h.inv.staging.core2Ok k (by rw [hpc']; rfl)
  have hbuf : (stage k).buf = (s.stage k).buf := by
    refine h.buf k (.inl ?_) (h.pushes k hpc)
    rw [← (h.pads k).own]
    exact hown
  simp only [pushGive, hpc] at hstep
  obtain rfl := Option.some.inj hstep
  refine ⟨stage, lost, h.still rfl (fun _ => id) (fun _ _ => id) (fun _ hk => by cases hk) ?_⟩
  refine @txInv_give _ _ _ _ mac h.inv hpc' ?_
  simp [pushGive, TxState.padded, hpc, hbuf]

theorem Core3Pc.entry_of_written {c3 : Core3Pc} {k : StageKey} {len : ℕ}
    (h : c3.written = some (k, len)) : c3.padded.entry = some k := by
  cases c3 <;> simp_all [Core3Pc.written, Core3Pc.padded, Core3Pc.entry]

theorem Core3Pc.entry_of_copied {c3 : Core3Pc} {k : StageKey} (h : c3.copied = some k) :
    c3.padded.entry = some k := by
  cases c3 <;> simp_all [Core3Pc.copied, Core3Pc.padded, Core3Pc.entry]

/-- Core 2 writes the entry it works on, which is not core 3's. -/
theorem PaddedBy.core2Entry (h : PaddedBy pkt s stage lost) {k : StageKey} {e f : StageEntry}
    (hentry : s.core2.entry = some k) (hstage : s'.stage = Function.update s.stage k e)
    (hcore3 : s'.core3 = s.core3) (hpush : ∀ i, s'.core2 ≠ .pushTok i) (hpads : Pads e f)
    (hbuf : e.own = 1 → e.len ≠ 0 → f.buf = e.buf)
    (hinv : TxInv pkt (s'.padded (Function.update stage k f) lost)) : Padded pkt s' := by
  have hne : ∀ i, s.core3.padded.entry = some i → i ≠ k := fun i hi => h.inv.entry_ne hentry hi
  refine ⟨_, lost, h.entry k hstage hpads ?_ ?_ ?_ ?_ ?_ hinv⟩
  · rintro (hown | hcopied)
    · exact hbuf hown
    · rw [hcore3] at hcopied
      exact absurd rfl (hne k (Core3Pc.entry_of_copied hcopied))
  · intro i _ hi
    rwa [← hcore3]
  · intro len hw
    rw [hcore3] at hw
    exact absurd rfl (hne k (Core3Pc.entry_of_written hw))
  · intro i len _ hw
    rwa [← hcore3]
  · intro i hi
    exact absurd hi (hpush i)

theorem padded_core2 {a : Core2Action} (h : Padded pkt s) (hstep : core2Step pkt s a = some s') :
    Padded pkt s' := by
  obtain ⟨stage, lost, h⟩ := h
  by_cases ha : a.tdma = true
  · obtain ⟨hsame, hstage, hcore3, hpush⟩ := @tdma_padded _ _ _ stage lost _ ha hstep
    refine ⟨stage, lost, h.still hstage ?_ ?_ ?_ (txInv_core2 h.inv hsame)⟩
    · intro k hk
      rwa [← hcore3]
    · intro k len hk
      rwa [← hcore3]
    · intro k hk
      exact absurd hk (hpush k)
  -- the steps of `eagle_tx_ring_push` are those that look at an entry
  cases a with
  | pushStart band =>
    cases hpc : s.core2 with
    | idle => exact padded_pushStart h hpc hstep
    | _ => simp [core2Step, pushStart, hpc] at hstep
  | give mac =>
    cases hpc : s.core2 with
    | pushTok k => exact padded_give h hpc hstep
    | _ => simp [core2Step, pushGive, hpc] at hstep
  | clear =>
    cases hpc : s.core2 with
    | pushClear k =>
      simp only [core2Step, pushClear, hpc] at hstep
      obtain rfl := Option.some.inj hstep
      have hown := (h.pads k).own
      refine h.core2Entry (k := k) (f := ⟨0, 0xFFFF, 0, (stage k).own⟩) (by rw [hpc]; rfl)
        rfl rfl (fun i hi => by cases hi) ⟨hown, rfl, fun hlen => absurd rfl hlen⟩
        (fun _ hlen => absurd rfl hlen) ?_
      refine txInv_clear (k := k) h.inv hpc ?_
      simp [pushClear, TxState.padded, hpc]
    | _ => simp [core2Step, pushClear, hpc] at hstep
  | clearOwn =>
    cases hpc : s.core2 with
    | pushOwn k =>
      simp only [core2Step, pushOwn, hpc] at hstep
      obtain rfl := Option.some.inj hstep
      have hpads := h.pads k
      refine h.core2Entry (k := k) (f := { stage k with own := 0 }) (by rw [hpc]; rfl)
        rfl rfl (fun i hi => by cases hi) ⟨rfl, hpads.token, hpads.len⟩
        (fun hown => by cases hown) ?_
      refine txInv_clearOwn (k := k) h.inv hpc ?_
      simp [pushOwn, TxState.padded, hpc]
    | _ => simp [core2Step, pushOwn, hpc] at hstep
  | _ => exact absurd rfl ha

/-! ## Core 3 staging -/

theorem padded_stageStart {band : Fin 2} {hdr : ℕ} {drop : Bool} (h : PaddedBy pkt s stage lost)
    (hpc : s.core3 = .idle) (hstep : stageStart s band hdr drop = some s') : Padded pkt s' := by
  simp only [stageStart, hpc] at hstep
  split at hstep
  · obtain rfl := Option.some.inj hstep
    exact ⟨stage, lost, h⟩
  next hown =>
  split at hstep
  · obtain rfl := Option.some.inj hstep
    exact ⟨stage, lost, h⟩
  · obtain rfl := Option.some.inj hstep
    have hown : (stage (band, s.stageWidx band)).own ≠ 1 := by
      rw [(h.pads _).own]
      exact hown
    refine ⟨stage, lost, h.still rfl (fun _ hk => by cases hk) (fun _ _ hk => by cases hk)
      (fun _ => id) ?_⟩
    refine h.inv.setCore3 (.stage (band, s.stageWidx band) (padLen (hostLen hdr))) ?_ rfl rfl
      ⟨hown, padLen_ne _⟩
    simp only [TxState.padded, hpc]
    rfl

/-- Core 3 writes the entry it works on, which is not core 2's. -/
theorem PaddedBy.core3Entry (h : PaddedBy pkt s stage lost) {k : StageKey} {e f : StageEntry}
    (hentry : s.core3.padded.entry = some k) (hstage : s'.stage = Function.update s.stage k e)
    (hcore2 : s'.core2 = s.core2) (hpads : Pads e f)
    (hbuf : e.own = 1 ∨ s'.core3.copied = some k → e.len ≠ 0 → f.buf = e.buf)
    (hmine : ∀ i, s'.core3.padded.entry = some i → i = k)
    (hlen : ∀ len, s'.core3.written = some (k, len) → e.len = len)
    (hinv : TxInv pkt (s'.padded (Function.update stage k f) lost)) : Padded pkt s' := by
  refine ⟨_, lost, h.entry k hstage hpads hbuf ?_ hlen ?_ ?_ hinv⟩
  · intro i hi hcopied
    exact absurd (hmine i (Core3Pc.entry_of_copied hcopied)) hi
  · intro i len hi hw
    exact absurd (hmine i (Core3Pc.entry_of_written hw)) hi
  · intro i hpc
    rw [hcore2] at hpc
    refine ⟨?_, hpc⟩
    have hi : (s.padded stage lost).core2.entry = some i := by
      simp only [TxState.padded, hpc]
      rfl
    exact (h.inv.entry_ne hi hentry).symm

theorem padded_stageLen {k : StageKey} {len : ℕ} (h : PaddedBy pkt s stage lost)
    (hpc : s.core3 = .stage k len) (hstep : stageLen s = some s') : Padded pkt s' := by
  have hpc' : (s.padded stage lost).core3 = .stage k (padLen len) := by
    simp only [TxState.padded, hpc]
    rfl
  have hown : (stage k).own ≠ 1 := h.inv.staging.core3Ok.own_ne (by rw [hpc']; rfl)
  have hpads := h.pads k
  have hown' : (s.stage k).own ≠ 1 := by
    rw [← hpads.own]
    exact hown
  have hbytes : eagleTxBufBytes = 2048 := rfl
  -- the entry gets its length; what follows depends on the branch
  have hentry : ∀ (s' : TxState) (n : ℕ),
      s'.stage = Function.update s.stage k { s.stage k with len := n } → s'.core2 = s.core2 →
      s'.core3.copied = none → s'.core3.written = some (k, n) →
      stageLen (s.padded stage lost) = some (s'.padded
        (Function.update stage k { stage k with len := padLen n }) lost) → Padded pkt s' := by
    intro s' n hstage hcore2 hcopied hwritten hsame
    refine h.core3Entry (k := k) (f := { stage k with len := padLen n }) (by rw [hpc]; rfl)
      hstage hcore2 ⟨hpads.own, hpads.token, fun hn => padLen_of_ne hn⟩ ?_ ?_ ?_
      (txInv_stageLen h.inv hpc' hsame)
    · rintro (hone | hcopy)
      · exact absurd hone hown'
      · rw [hcopied] at hcopy
        cases hcopy
    · intro i hi
      rw [Core3Pc.entry_of_written hwritten] at hi
      exact (Option.some.inj hi).symm
    · intro m hm
      rw [hwritten] at hm
      exact congrArg Prod.snd (Option.some.inj hm)
  simp only [stageLen, hpc] at hstep
  split at hstep
  · next hgt =>
    have hlen : padLen len = len := padLen_of_ne (by omega)
    have hmin : padLen (min len (2 * eagleTxBufBytes)) = min len (2 * eagleTxBufBytes) :=
      padLen_of_ne (by omega)
    cases hjumbo : s.jumbo with
    | nil =>
      simp only [hjumbo] at hstep
      obtain rfl := Option.some.inj hstep
      refine hentry _ _ rfl rfl rfl rfl ?_
      simp only [stageLen, hpc', hlen, if_pos hgt]
      simp only [TxState.padded, Core3Pc.padded, hjumbo, hmin]
    | cons token rest =>
      simp only [hjumbo] at hstep
      obtain rfl := Option.some.inj hstep
      refine hentry _ _ rfl rfl rfl rfl ?_
      simp only [stageLen, hpc', hlen, if_pos hgt]
      simp only [TxState.padded, Core3Pc.padded, hjumbo, hmin]
  · next hle =>
    have hsmall : ¬padLen len > eagleTxBufBytes := by
      unfold padLen
      split <;> omega
    split at hstep
    · next hidle =>
      obtain rfl := Option.some.inj hstep
      refine hentry _ _ rfl rfl rfl rfl ?_
      simp only [stageLen, hpc', if_neg hsmall]
      simp only [TxState.padded, Core3Pc.padded, hidle, if_true]
    · cases hstep

theorem padded_alloc3 {k : StageKey} {len : ℕ} (h : PaddedBy pkt s stage lost)
    (hpc : s.core3 = .stageAlloc k len) (hstep : stageAlloc s = some s') : Padded pkt s' := by
  have hpc' : (s.padded stage lost).core3 = .stageAlloc k (padLen len) := by
    simp only [TxState.padded, hpc]
    rfl
  simp only [stageAlloc, hpc] at hstep
  split at hstep
  · next hnone =>
    obtain rfl := Option.some.inj hstep
    refine ⟨stage, lost, h.still rfl (fun _ hi => by cases hi) ?_ (fun _ => id)
      (txInv_alloc3 h.inv hpc' ?_)⟩
    · intro i n hi
      rw [hpc]
      exact hi
    · simp only [stageAlloc, hpc']
      simp only [TxState.padded, hnone, Core3Pc.padded]
  · next ids hsome =>
    obtain rfl := Option.some.inj hstep
    refine ⟨stage, lost, h.still rfl (fun _ hi => by cases hi) ?_ (fun _ => id)
      (txInv_alloc3 h.inv hpc' ?_)⟩
    · intro i n hi
      rw [hpc]
      exact hi
    · simp only [stageAlloc, hpc']
      simp only [TxState.padded, hsome, Core3Pc.padded]

theorem padded_stageTok {k : StageKey} {len : ℕ} {token : ℤ} (h : PaddedBy pkt s stage lost)
    (hpc : s.core3 = .stageTok k len token) (hstep : stageTok s = some s') : Padded pkt s' := by
  have hpc' : (s.padded stage lost).core3 = .stageTok k (padLen len) token := by
    simp only [TxState.padded, hpc]
    rfl
  have hown : (stage k).own ≠ 1 := h.inv.staging.core3Ok.own_ne (by rw [hpc']; rfl)
  have hpads := h.pads k
  have hlen := h.written k len (by rw [hpc]; rfl)
  have hsame : stageTok (s.padded stage lost) = some (s'.padded
      (Function.update stage k { stage k with token := u16 token }) lost) := by
    simp only [stageTok, hpc, hpc'] at hstep ⊢
    split at hstep
    all_goals
      next heq =>
      obtain rfl := Option.some.inj hstep
      simp only [heq, if_true, if_false, TxState.padded, Core3Pc.padded]
  simp only [stageTok, hpc] at hstep
  split at hstep
  all_goals
    obtain rfl := Option.some.inj hstep
    refine h.core3Entry (k := k) (f := { stage k with token := u16 token }) (by rw [hpc]; rfl)
      rfl rfl ⟨hpads.own, rfl, hpads.len⟩ ?_ ?_ ?_ (txInv_stageTok h.inv hpc' hsame)
    · rintro (hone | hcopied)
      · exact absurd (hpads.own.trans hone) hown
      · cases hcopied
    · intro i hi
      simp_all [Core3Pc.padded, Core3Pc.entry]
    · intro n hn
      simp_all [Core3Pc.written]

theorem padded_stageCopy {k : StageKey} {len : ℕ} {token : ℤ} (h : PaddedBy pkt s stage lost)
    (hpc : s.core3 = .stageCopy k len token) (hstep : stageCopy pkt s = some s') :
    Padded pkt s' := by
  have hpc' : (s.padded stage lost).core3 = .stageCopy k (padLen len) token := by
    simp only [TxState.padded, hpc]
    rfl
  have hpads := h.pads k
  have hlen := h.written k len (by rw [hpc]; rfl)
  have hinv : TxInv pkt (({ s with core3 := .stageOwn k token } : TxState).padded
      (Function.update stage k { stage k with buf := tokAddr pkt (u32 token) }) lost) := by
    refine txInv_stageCopy h.inv hpc' ?_
    simp only [stageCopy, hpc', if_pos (padLen_ne len)]
    rfl
  have hmine : ∀ i, (Core3Pc.stageOwn k token).padded.entry = some i → i = k := by
    intro i hi
    exact (Option.some.inj hi).symm
  let f : StageEntry := { stage k with buf := tokAddr pkt (u32 token) }
  simp only [stageCopy, hpc] at hstep
  split at hstep
  · obtain rfl := Option.some.inj hstep
    exact h.core3Entry (k := k) (f := f) (by rw [hpc]; rfl) rfl rfl
      ⟨hpads.own, hpads.token, hpads.len⟩ (fun _ _ => rfl) hmine (fun _ hn => by cases hn) hinv
  · next hzero =>
    -- nothing is copied; the padded frame gets its address
    obtain rfl := Option.some.inj hstep
    have hempty : (s.stage k).len = 0 := hlen.trans (not_not.mp hzero)
    exact h.core3Entry (k := k) (e := s.stage k) (f := f) (by rw [hpc]; rfl)
      (Function.update_eq_self k s.stage).symm rfl ⟨hpads.own, hpads.token, hpads.len⟩
      (fun _ hne => absurd hempty hne) hmine (fun _ hn => by cases hn) hinv

theorem padded_stageOwn {k : StageKey} {token : ℤ} (h : PaddedBy pkt s stage lost)
    (hpc : s.core3 = .stageOwn k token) (hstep : stageOwn s = some s') : Padded pkt s' := by
  have hpc' : (s.padded stage lost).core3 = .stageOwn k token := by
    simp only [TxState.padded, hpc]
    rfl
  have hpads := h.pads k
  have hsame : stageOwn (s.padded stage lost) = some (s'.padded
      (Function.update stage k { stage k with own := 1 }) lost) := by
    simp only [stageOwn, hpc, hpc', Option.some.injEq] at hstep ⊢
    subst hstep
    rfl
  simp only [stageOwn, hpc] at hstep
  obtain rfl := Option.some.inj hstep
  refine h.core3Entry (k := k) (f := { stage k with own := 1 }) (by rw [hpc]; rfl) rfl rfl
    ⟨rfl, hpads.token, hpads.len⟩ ?_ (fun _ hi => by cases hi) (fun _ hn => by cases hn)
    (txInv_stageOwn h.inv hpc' hsame)
  intro _ hne
  exact h.buf k (.inr (by rw [hpc]; rfl)) hne

/-! ## Core 3 reading tx done reports -/

/-- The steps of `eagle_txdone_poll` but the reading of a report. -/
def Core3Action.poll : Core3Action → Bool
  | .pollStart | .put | .free | .pollEnd => true
  | _ => false

/-- A step of `eagle_txdone_poll` touches no entry and is the same in the
    padded state. -/
theorem poll_padded {a : Core3Action} (ha : a.poll = true) (hstep : core3Step pkt s a = some s') :
    core3Step pkt (s.padded stage lost) a = some (s'.padded stage lost) ∧
      s'.stage = s.stage ∧ s'.core2 = s.core2 ∧ s'.core3.copied = none ∧
      s'.core3.written = none := by
  -- one action after the other: none reads or writes a staged entry
  cases a with
  | pollStart =>
    cases hpc : s.core3 with
    | idle =>
      simp only [core3Step, pollStart, hpc, Option.some.injEq] at hstep
      subst hstep
      simp [core3Step, pollStart, TxState.padded, Core3Pc.padded, Core3Pc.copied,
        Core3Pc.written, hpc]
    | _ => simp [core3Step, pollStart, hpc] at hstep
  | put =>
    cases hpc : s.core3 with
    | done rest toks =>
      cases rest with
      | nil => simp [core3Step, pollPut, hpc] at hstep
      | cons t rest =>
        simp only [core3Step, pollPut, TxState.padded, Core3Pc.padded, hpc] at hstep ⊢
        grind [Core3Pc.padded, Core3Pc.copied, Core3Pc.written]
    | _ => simp [core3Step, pollPut, hpc] at hstep
  | free =>
    cases hpc : s.core3 with
    | doneFree rest toks =>
      simp only [core3Step, core3Free, TxState.padded, Core3Pc.padded, hpc] at hstep ⊢
      grind [Core3Pc.padded, Core3Pc.copied, Core3Pc.written]
    | doneEnd toks =>
      simp only [core3Step, core3Free, TxState.padded, Core3Pc.padded, hpc] at hstep ⊢
      grind [Core3Pc.padded, Core3Pc.copied, Core3Pc.written]
    | _ => simp [core3Step, core3Free, hpc] at hstep
  | pollEnd =>
    cases hpc : s.core3 with
    | done rest toks =>
      cases rest with
      | nil =>
        simp only [core3Step, pollEnd, TxState.padded, Core3Pc.padded, hpc] at hstep ⊢
        grind [Core3Pc.padded, Core3Pc.copied, Core3Pc.written]
      | cons t rest => simp [core3Step, pollEnd, hpc] at hstep
    | _ => simp [core3Step, pollEnd, hpc] at hstep
  | _ => cases ha

/-- The code takes no token from a report that it does not list. -/
theorem reportScan_sublist (cnt n : ℕ) (ws : List ℕ) :
    (reportScan cnt n ws).Sublist (ws.flatMap wordIds) := by
  induction ws generalizing n with
  | nil => exact List.Sublist.refl _
  | cons w ws ih =>
    rw [reportScan, List.flatMap_cons]
    split
    · exact List.filter_sublist.append (ih _)
    · exact List.nil_sublist _

/-- A report may list more tokens than the code takes; the padded state's
    chip keeps the others. -/
theorem padded_report {toks : List ℕ} {r : TxReport} (h : PaddedBy pkt s stage lost)
    (hpc : s.core3 = .done [] toks) (hrep : (r.listed : Multiset ℕ) ≤ s.chip)
    (hstep : pollReport s r = some s') : Padded pkt s' := by
  have hpc' : (s.padded stage lost).core3 = .done [] toks := by
    simp only [TxState.padded, hpc]
    rfl
  have hfreed : (r.freed : Multiset ℕ) ≤ r.listed := (reportScan_sublist _ _ _).subperm
  have hinv := h.inv.report hpc' ((hfreed.trans hrep).trans le_self_add)
  have hchip : s.chip + lost - r.freed = s.chip - r.listed + (lost + (r.listed - r.freed)) := by
    obtain ⟨left, hleft⟩ := Multiset.le_iff_exists_add.mp hrep
    obtain ⟨more, hmore⟩ := Multiset.le_iff_exists_add.mp hfreed
    rw [hleft, add_tsub_cancel_left, hmore, add_tsub_cancel_left, add_assoc, add_assoc,
      add_tsub_cancel_left]
    abel
  simp only [pollReport, hpc] at hstep
  obtain rfl := Option.some.inj hstep
  refine ⟨stage, lost + (r.listed - r.freed), h.still rfl (fun _ hk => by cases hk)
    (fun _ _ hk => by cases hk) (fun _ => id) ?_⟩
  simp only [TxState.padded] at hinv ⊢
  rw [hchip] at hinv
  exact hinv

theorem padded_core3 {a : Core3Action} (h : Padded pkt s) (hrep : ReportsHeld s a)
    (hstep : core3Step pkt s a = some s') : Padded pkt s' := by
  obtain ⟨stage, lost, h⟩ := h
  by_cases ha : a.poll = true
  · obtain ⟨hsame, hstage, hcore2, hcopied, hwritten⟩ := @poll_padded _ _ _ stage lost _ ha hstep
    have hinv : TxInv pkt (s'.padded stage lost) := by
      refine txInv_core3 h.inv ?_ ?_ hsame
      · cases a <;> trivial
      · cases a <;> trivial
    refine ⟨stage, lost, h.still hstage ?_ ?_ ?_ hinv⟩
    · intro k hk
      rw [hcopied] at hk
      cases hk
    · intro k len hk
      rw [hwritten] at hk
      cases hk
    · intro k hk
      rwa [← hcore2]
  -- the steps of a staging write the entry; the report takes tokens back
  cases a with
  | stageStart band hdr drop =>
    cases hpc : s.core3 with
    | idle => exact padded_stageStart h hpc hstep
    | _ => simp [core3Step, stageStart, hpc] at hstep
  | stageLen =>
    cases hpc : s.core3 with
    | stage k len => exact padded_stageLen h hpc hstep
    | _ => simp [core3Step, stageLen, hpc] at hstep
  | alloc =>
    cases hpc : s.core3 with
    | stageAlloc k len => exact padded_alloc3 h hpc hstep
    | _ => simp [core3Step, stageAlloc, hpc] at hstep
  | stageTok =>
    cases hpc : s.core3 with
    | stageTok k len token => exact padded_stageTok h hpc hstep
    | _ => simp [core3Step, stageTok, hpc] at hstep
  | stageCopy =>
    cases hpc : s.core3 with
    | stageCopy k len token => exact padded_stageCopy h hpc hstep
    | _ => simp [core3Step, stageCopy, hpc] at hstep
  | stageOwn =>
    cases hpc : s.core3 with
    | stageOwn k token => exact padded_stageOwn h hpc hstep
    | _ => simp [core3Step, stageOwn, hpc] at hstep
  | report r =>
    cases hpc : s.core3 with
    | done rest toks =>
      cases rest with
      | nil => exact padded_report h hpc hrep hstep
      | cons t rest => simp [core3Step, pollReport, hpc] at hstep
    | _ => simp [core3Step, pollReport, hpc] at hstep
  | _ => exact absurd rfl ha

/-! ## Every run -/

theorem padded_init (h : ResetStart pkt s) : Padded pkt s := by
  have hsame : s.padded s.stage 0 = s := by
    have hcore3 : s.core3.padded = s.core3 := by
      rw [h.core3]
      rfl
    simp only [TxState.padded, hcore3, add_zero]
  refine ⟨s.stage, 0, fun _ => ⟨rfl, rfl, fun _ => rfl⟩, fun _ _ _ => rfl, ?_, ?_, ?_⟩
  · intro k len hk
    rw [h.core3] at hk
    cases hk
  · intro k hk
    rw [h.core2] at hk
    cases hk
  · rw [hsame]
    exact txInv_init h

theorem padded_of_reachable (h : (stagingSystem pkt).Reachable s) : Padded pkt s := by
  refine h.invariant (fun _ => padded_init) fun s a s' hpad hstep => ?_
  cases a with
  | core2 a => exact padded_core2 hpad hstep
  | core3 a => exact padded_core3 hpad hstep.1 hstep.2

/-- What is held in a state is held in the padded one. -/
theorem PaddedBy.outside_le (h : PaddedBy pkt s stage lost) :
    outside pkt s ≤ outside pkt (s.padded stage lost) := by
  have hstage : stageTotal stage s.core2.pushed = stageTotal s.stage s.core2.pushed := by
    refine stageTotal_congr fun k => ?_
    simp only [stageHeld, (h.pads k).own, (h.pads k).token]
  simp only [outside, TxState.padded, Core3Pc.padded_held, hstage]
  exact add_le_add_right le_self_add _

/-- No place holds a token another one holds, and all of them are tokens. -/
theorem PaddedBy.sum_places_le (h : PaddedBy pkt s stage lost) :
    ∑ p, places pkt s p ≤ txTokens := by
  rw [sum_places, ← h.inv.ring.conserved]
  exact add_le_add_right h.outside_le _

end ClankerNPU.EagleTx
