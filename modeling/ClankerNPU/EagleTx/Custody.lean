import ClankerNPU.EagleTx.Reset
import Mathlib.Algebra.BigOperators.Fin

/-! # Custody of the tx tokens

    Every tx token is in the free ring, on the jumbo stack, under a TDMA
    rx descriptor, in one of the cores' hands, in a staging entry or in
    the WiFi chip. A step of either core moves tokens between these
    places; the sum over them is an invariant of every run in which no
    host frame of length zero is staged. -/

open scoped BigOperators

namespace ClankerNPU.EagleTx

open Circular Bufid Custody

/-! ## Places -/

/-- Where a tx token can be. -/
inductive Place where
  | freeRing
  | jumboStack
  | tdmaDesc
  | core2
  | core3
  | staging
  | chip
  deriving DecidableEq

instance : Fintype Place where
  elems := {.freeRing, .jumboStack, .tdmaDesc, .core2, .core3, .staging, .chip}
  complete := by intro p; cases p <;> decide

/-- The token behind a TDMA rx descriptor's buffer word. -/
def descHeld (pkt buf : ℕ) : Multiset ℕ := {addrTok pkt buf % 2 ^ 16}

/-- The staging entry whose frame core 2 is done with but has not
    cleared yet. -/
def Core2Pc.pushed : Core2Pc → Option StageKey
  | .pushClear k | .pushOwn k => some k
  | _ => none

/-- The token of a staging entry: an entry counts from its own flag on
    until core 2 is done with it. -/
def stageHeld (stage : StageKey → StageEntry) (pushed : Option StageKey) (k : StageKey) :
    Multiset ℕ :=
  if (stage k).own = 1 ∧ pushed ≠ some k then {(stage k).token} else 0

/-- The tokens under the TDMA rx descriptors. -/
def descTotal (pkt : ℕ) (desc : DescKey → ℕ) : Multiset ℕ := ∑ k, descHeld pkt (desc k)

/-- The tokens in the staging entries. -/
def stageTotal (stage : StageKey → StageEntry) (pushed : Option StageKey) : Multiset ℕ :=
  ∑ k, stageHeld stage pushed k

/-- Writing a descriptor's buffer word swaps the tokens. -/
theorem descTotal_update (pkt : ℕ) (desc : DescKey → ℕ) (k : DescKey) (buf : ℕ) :
    descTotal pkt (Function.update desc k buf) + descHeld pkt (desc k)
      = descTotal pkt desc + descHeld pkt buf :=
  sum_update (descHeld pkt) desc k buf

/-- `tdma_rx_collect_bufids` finds the tokens under the descriptors. -/
theorem descTotal_eq_collect (pkt : ℕ) (desc : DescKey → ℕ) :
    descTotal pkt desc = (tdmaRxCollectBufids pkt desc : Multiset ℕ) := by
  have hring : ∀ ring : Fin 2, ∑ i : Fin 1024, descHeld pkt (desc (ring, i))
      = ((List.finRange 1024).map fun i => addrTok pkt (desc (ring, i)) % 2 ^ 16 : List ℕ) := by
    intro ring
    rw [Fin.sum_univ_def]
    conv_rhs => rw [List.map_eq_flatMap, ← sum_map_coe]
    simp only [descHeld, Multiset.coe_singleton]
  unfold descTotal tdmaRxCollectBufids
  rw [Fintype.sum_prod_type, Fin.sum_univ_def]
  simp only [hring]
  exact sum_map_coe _ _

/-- Two staging areas that agree off one entry differ by that entry. -/
theorem stageTotal_agree_off (stage stage' : StageKey → StageEntry)
    (pushed pushed' : Option StageKey) (k : StageKey)
    (h : ∀ i, i ≠ k → stageHeld stage pushed i = stageHeld stage' pushed' i) :
    stageTotal stage pushed + stageHeld stage' pushed' k
      = stageTotal stage' pushed' + stageHeld stage pushed k :=
  sum_agree_off _ _ k h

theorem stageTotal_congr {stage stage' : StageKey → StageEntry} {pushed pushed' : Option StageKey}
    (h : ∀ i, stageHeld stage pushed i = stageHeld stage' pushed' i) :
    stageTotal stage pushed = stageTotal stage' pushed' :=
  Finset.sum_congr rfl fun i _ => h i

theorem stageTotal_eq_zero {stage : StageKey → StageEntry} {pushed : Option StageKey}
    (h : ∀ k, stageHeld stage pushed k = 0) : stageTotal stage pushed = 0 :=
  Finset.sum_eq_zero fun k _ => h k

/-- One entry's token is among the staged ones. -/
theorem stageHeld_le_stageTotal (stage : StageKey → StageEntry) (pushed : Option StageKey)
    (k : StageKey) : stageHeld stage pushed k ≤ stageTotal stage pushed :=
  le_of_sum rfl k

attribute [irreducible] descTotal stageTotal

/-- Tokens in core 2's local variables. -/
def Core2Pc.held : Core2Pc → Multiset ℕ
  | .tdma t | .tdmaTaken t | .tdmaNext t _ | .tdmaEnd t | .tdmaFreeN t => t.toks
  | .tdmaFill t tok => (tok % 2 ^ 16) ::ₘ (t.toks : Multiset ℕ)
  | .tdmaFree t tok => tok ::ₘ (t.toks : Multiset ℕ)
  | _ => 0

/-- The token behind an allocation's result. -/
def tokHeld (token : ℤ) : Multiset ℕ := if token = -1 then 0 else {u16 token}

/-- Tokens in core 3's local variables. -/
def Core3Pc.held : Core3Pc → Multiset ℕ
  | .stageTok _ _ token | .stageCopy _ _ token | .stageOwn _ token => tokHeld token
  | .done rest toks | .doneFree rest toks => (rest : Multiset ℕ) + toks
  | .doneEnd toks => toks
  | _ => 0

/-- What each place holds. -/
def places (pkt : ℕ) (s : TxState) : Place → Multiset ℕ
  | .freeRing => s.ring.stored txFreeRingEntries
  | .jumboStack => s.jumbo
  | .tdmaDesc => descTotal pkt s.desc
  | .core2 => s.core2.held
  | .core3 => s.core3.held
  | .staging => stageTotal s.stage s.core2.pushed
  | .chip => s.chip

/-- What all places but the free ring hold. -/
abbrev outside (pkt : ℕ) (s : TxState) : Multiset ℕ :=
  s.jumbo + descTotal pkt s.desc + s.core2.held + s.core3.held +
    stageTotal s.stage s.core2.pushed + s.chip

theorem stageHeld_le_outside (pkt : ℕ) (s : TxState) (k : StageKey) :
    stageHeld s.stage s.core2.pushed k ≤ outside pkt s :=
  (stageHeld_le_stageTotal _ _ k).trans (le_add_self.trans le_self_add)

theorem sum_places (pkt : ℕ) (s : TxState) :
    ∑ p, places pkt s p = (s.ring.stored txFreeRingEntries : Multiset ℕ) + outside pkt s := by
  have huniv : (Finset.univ : Finset Place)
      = {.freeRing, .jumboStack, .tdmaDesc, .core2, .core3, .staging, .chip} := rfl
  rw [huniv]
  simp [places, outside]
  abel

/-- The tokens in custody: the ids of the ring and the even half of each
    jumbo pair. -/
def txTokens : Multiset ℕ :=
  Multiset.range txJumboFirst + (Multiset.range txJumboPairs).map fun i => txJumboFirst + 2 * i

theorem mem_txTokens {t : ℕ} :
    t ∈ txTokens ↔ t < txFreeRingEntries ∧ (t < txJumboFirst ∨ t % 2 = 0) := by
  unfold txTokens
  rw [Multiset.mem_add, Multiset.mem_range, Multiset.mem_map]
  have hfirst : txJumboFirst = 13056 := rfl
  have hpairs : txJumboPairs = 128 := rfl
  have hring : txFreeRingEntries = 13312 := rfl
  constructor
  · rintro (hlt | ⟨i, hi, rfl⟩)
    · omega
    · have := Multiset.mem_range.mp hi
      omega
  · rintro ⟨hlt, hlow | heven⟩
    · exact .inl hlow
    · by_cases hlow : t < txJumboFirst
      · exact .inl hlow
      · refine .inr ⟨(t - txJumboFirst) / 2, Multiset.mem_range.mpr (by omega), by omega⟩

theorem nodup_txTokens : txTokens.Nodup := by
  unfold txTokens
  rw [Multiset.nodup_add]
  refine ⟨Multiset.nodup_range _, ?_, ?_⟩
  · exact (Multiset.nodup_range _).map fun i j h => by omega
  · rw [Multiset.disjoint_left]
    intro t ht hmem
    obtain ⟨i, -, rfl⟩ := Multiset.mem_map.mp hmem
    have := Multiset.mem_range.mp ht
    omega

theorem card_txTokens : txTokens.card ≤ txFreeRingEntries := by
  unfold txTokens
  rw [Multiset.card_add, Multiset.card_map, Multiset.card_range, Multiset.card_range]
  decide

/-! ## The invariant -/

/-- Core 2 is inside `tx_token_alloc_n`. -/
def Core2Pc.allocating : Core2Pc → Bool
  | .tdmaAlloc _ => true
  | _ => false

/-- The ids core 2 is giving back. -/
def Core2Pc.freeing : Core2Pc → Option (List ℕ)
  | .tdmaFree _ tok => some [tok]
  | .tdmaFreeN t => some t.toks
  | _ => none

/-- The staging entry core 2 works on. -/
def Core2Pc.entry : Core2Pc → Option StageKey
  | .pushTok k | .pushClear k | .pushOwn k => some k
  | _ => none

/-- Where core 2 works on no entry, nothing is asked of one. -/
theorem notEntry {P : StageKey → Prop} : ∀ k, (none : Option StageKey) = some k → P k := by
  simp

/-- Core 3 is inside `tx_token_alloc`. -/
def Core3Pc.allocating : Core3Pc → Bool
  | .stageAlloc _ _ => true
  | _ => false

/-- The ids core 3 is giving back. -/
def Core3Pc.freeing : Core3Pc → Option (List ℕ)
  | .doneFree _ toks | .doneEnd toks => some toks
  | _ => none

/-- A staged frame has a length, and its buffer address is its token's. -/
def EntryOk (pkt : ℕ) (e : StageEntry) : Prop :=
  e.len ≠ 0 ∧ addrTok pkt e.buf % 2 ^ 16 = e.token

/-- The entry core 3 is filling is not yet core 2's, and holds what core
    3 has recorded so far. -/
def Core3Ok (pkt : ℕ) (stage : StageKey → StageEntry) : Core3Pc → Prop
  | .stage k len => (stage k).own ≠ 1 ∧ len ≠ 0
  | .stageAlloc k len | .stageTok k len _ =>
    (stage k).own ≠ 1 ∧ (stage k).len = len ∧ len ≠ 0
  | .stageCopy k len token =>
    (stage k).own ≠ 1 ∧ (stage k).len = len ∧ len ≠ 0 ∧ token ≠ -1 ∧
      (stage k).token = u16 token
  | .stageOwn k token =>
    (stage k).own ≠ 1 ∧ EntryOk pkt (stage k) ∧ token ≠ -1 ∧
      (stage k).token = u16 token
  | _ => True

/-- The staging entry core 3 works on. -/
def Core3Pc.entry : Core3Pc → Option StageKey
  | .stage k _ | .stageAlloc k _ | .stageTok k _ _ | .stageCopy k _ _ | .stageOwn k _ => some k
  | _ => none

/-- Core 3 only works on an entry whose own flag is not set. -/
theorem Core3Ok.own_ne {pkt : ℕ} {stage : StageKey → StageEntry} {c3 : Core3Pc} {k : StageKey}
    (h : Core3Ok pkt stage c3) (hk : c3.entry = some k) : (stage k).own ≠ 1 := by
  cases c3 <;> simp only [Core3Pc.entry, Option.some.injEq, reduceCtorEq] at hk
  all_goals
    subst hk
    exact h.1

/-- Core 3's facts are about its own entry. -/
theorem Core3Ok.congr {pkt : ℕ} {stage stage' : StageKey → StageEntry} {c3 : Core3Pc}
    (h : Core3Ok pkt stage c3) (heq : ∀ k, c3.entry = some k → stage' k = stage k) :
    Core3Ok pkt stage' c3 := by
  cases c3 <;> simp only [Core3Ok] at h ⊢
  all_goals
    rw [heq _ rfl]
    exact h

/-- Which core is inside which function of the ring. -/
structure Links (alloc : AllocPc) (free : FreePc) (c2 : Core2Pc) (c3 : Core3Pc) : Prop where
  alloc2 : c2.allocating = true → alloc ≠ .idle ∧ c3.allocating = false
  alloc3 : c3.allocating = true → alloc.single = true
  free2 : ∀ ids, c2.freeing = some ids → free ≠ .idle ∧ free.ids = ids ∧ c3.freeing = none
  free3 : ∀ ids, c3.freeing = some ids → free ≠ .idle ∧ free.ids = ids ∧ c2.freeing = none

/-- The staging entries are consistent with what the cores do to them. -/
structure StagingOk (pkt : ℕ) (stage : StageKey → StageEntry) (c2 : Core2Pc) (c3 : Core3Pc) :
    Prop where
  staged : ∀ k, (stage k).own = 1 → c2.pushed ≠ some k → EntryOk pkt (stage k)
  core2Ok : ∀ k, c2.entry = some k → (stage k).own = 1
  core3Ok : Core3Ok pkt stage c3

/-- The invariant of the transmit path. -/
structure TxInv (pkt : ℕ) (s : TxState) : Prop where
  /-- the free ring shares the tokens with all other places -/
  ring : RingInv txFreeRingEntries txTokens (outside pkt s) s.ring
  links : Links s.ring.alloc s.ring.free s.core2 s.core3
  staging : StagingOk pkt s.stage s.core2 s.core3
  jumboIds : ∀ t ∈ s.jumbo, txJumboFirst ≤ t

theorem TxInv.outside_le {pkt : ℕ} {s : TxState} (h : TxInv pkt s) : outside pkt s ≤ txTokens := by
  rw [← h.ring.conserved]
  exact le_add_self

/-- Whoever holds a token holds one of the ids. -/
theorem TxInv.lt_of_mem {pkt : ℕ} {s : TxState} (h : TxInv pkt s) {t : ℕ}
    (ht : t ∈ outside pkt s) : t < txFreeRingEntries :=
  (mem_txTokens.mp (Multiset.mem_of_le h.outside_le ht)).1

/-! ## Functions entered and left -/

namespace Links

variable {alloc alloc' : AllocPc} {free free' : FreePc} {c2 c2' : Core2Pc} {c3 c3' : Core3Pc}

theorem quiet2 (h : Links alloc free c2 c3) (ha : c2'.allocating = false)
    (hf : c2'.freeing = none) : Links alloc free c2' c3 := by
  refine ⟨?_, h.alloc3, ?_, fun ids h3 => ⟨(h.free3 ids h3).1, (h.free3 ids h3).2.1, hf⟩⟩
  · intro h2
    simp [ha] at h2
  · intro ids h2
    simp [hf] at h2

theorem quiet3 (h : Links alloc free c2 c3) (ha : c3'.allocating = false)
    (hf : c3'.freeing = none) : Links alloc free c2 c3' := by
  refine ⟨fun h2 => ⟨(h.alloc2 h2).1, ha⟩, ?_,
    fun ids h2 => ⟨(h.free2 ids h2).1, (h.free2 ids h2).2.1, hf⟩, ?_⟩
  · intro h3
    simp [ha] at h3
  · intro ids h3
    simp [hf] at h3

/-- With the alloc mutex free, no core is inside an allocating function. -/
theorem not_allocating (h : Links .idle free c2 c3) :
    c2.allocating = false ∧ c3.allocating = false := by
  constructor
  · by_contra hne
    exact (h.alloc2 (by simpa using hne)).1 rfl
  · by_contra hne
    cases h.alloc3 (by simpa using hne)

/-- With the free mutex free, no core is inside a returning function. -/
theorem not_freeing (h : Links alloc .idle c2 c3) : c2.freeing = none ∧ c3.freeing = none := by
  constructor
  · cases hf : c2.freeing with
    | none => rfl
    | some ids => exact absurd rfl (h.free2 ids hf).1
  · cases hf : c3.freeing with
    | none => rfl
    | some ids => exact absurd rfl (h.free3 ids hf).1

/-- An access inside an allocating function. -/
theorem allocGoesOn (h : Links alloc free c2 c3) (hne : alloc' ≠ .idle)
    (hsingle : alloc'.single = alloc.single) : Links alloc' free c2 c3 :=
  ⟨fun h2 => ⟨hne, (h.alloc2 h2).2⟩, fun h3 => hsingle ▸ h.alloc3 h3, h.free2, h.free3⟩

/-- An access inside a returning function. -/
theorem freeGoesOn (h : Links alloc free c2 c3) (hne : free' ≠ .idle)
    (hids : free'.ids = free.ids) : Links alloc free' c2 c3 :=
  ⟨h.alloc2, h.alloc3, fun ids h2 => ⟨hne, hids ▸ (h.free2 ids h2).2⟩,
    fun ids h3 => ⟨hne, hids ▸ (h.free3 ids h3).2⟩⟩

/-- When neither core allocates, the alloc mutex may be in any state. -/
theorem allocAny (h : Links alloc free c2 c3) (h2 : c2.allocating = false)
    (h3 : c3.allocating = false) : Links alloc' free c2 c3 := by
  refine ⟨?_, ?_, h.free2, h.free3⟩
  · intro ha
    simp [h2] at ha
  · intro ha
    simp [h3] at ha

/-- When neither core frees, the free mutex may be in any state. -/
theorem freeAny (h : Links alloc free c2 c3) (h2 : c2.freeing = none)
    (h3 : c3.freeing = none) : Links alloc free' c2 c3 := by
  refine ⟨h.alloc2, h.alloc3, ?_, ?_⟩
  · intro ids hf
    simp [h2] at hf
  · intro ids hf
    simp [h3] at hf

/-- Core 2 takes the alloc mutex. -/
theorem enterAlloc2 (h : Links .idle free c2 c3) (hne : alloc' ≠ .idle)
    (hf : c2'.freeing = none) : Links alloc' free c2' c3 := by
  have h3 := h.not_allocating.2
  refine ⟨fun _ => ⟨hne, h3⟩, ?_, ?_, ?_⟩
  · intro ha
    simp [h3] at ha
  · intro ids h2
    simp [hf] at h2
  · intro ids h3
    exact ⟨(h.free3 ids h3).1, (h.free3 ids h3).2.1, hf⟩

/-- Core 3 takes the alloc mutex for one id. -/
theorem enterAlloc3 (h : Links .idle free c2 c3) (hsingle : alloc'.single = true)
    (hf : c3'.freeing = none) : Links alloc' free c2 c3' := by
  have h2 := h.not_allocating.1
  refine ⟨?_, fun _ => hsingle, ?_, ?_⟩
  · intro ha
    simp [h2] at ha
  · intro ids h2
    exact ⟨(h.free2 ids h2).1, (h.free2 ids h2).2.1, hf⟩
  · intro ids h3
    simp [hf] at h3

/-- Core 2 takes the free mutex to give `ids` back. -/
theorem enterFree2 (h : Links alloc .idle c2 c3) (hne : free' ≠ .idle)
    (hids : c2'.freeing = some free'.ids) (ha : c2'.allocating = false) :
    Links alloc free' c2' c3 := by
  have h3 := h.not_freeing.2
  refine ⟨?_, h.alloc3, ?_, ?_⟩
  · intro h2
    simp [ha] at h2
  · intro ids h2
    rw [hids] at h2
    exact ⟨hne, Option.some.inj h2, h3⟩
  · intro ids hf
    simp [h3] at hf

/-- Core 3 takes the free mutex to give `ids` back. -/
theorem enterFree3 (h : Links alloc .idle c2 c3) (hne : free' ≠ .idle)
    (hids : c3'.freeing = some free'.ids) (ha : c3'.allocating = false) :
    Links alloc free' c2 c3' := by
  have h2 := h.not_freeing.1
  refine ⟨fun h2 => ⟨(h.alloc2 h2).1, ha⟩, ?_, ?_, ?_⟩
  · intro h3
    simp [ha] at h3
  · intro ids hf
    simp [h2] at hf
  · intro ids h3
    rw [hids] at h3
    exact ⟨hne, Option.some.inj h3, h2⟩

end Links

/-! ## Steps that only move a program counter -/

section basic

variable {pkt : ℕ} {s : TxState}

/-- Core 2's program counter matters to the staging entries only through
    the entry it works on. -/
theorem StagingOk.setCore2 {stage : StageKey → StageEntry} {c2 c2' : Core2Pc} {c3 : Core3Pc}
    (h : StagingOk pkt stage c2 c3) (hpush : c2'.pushed = c2.pushed)
    (hentry : ∀ k, c2'.entry = some k → (stage k).own = 1) : StagingOk pkt stage c2' c3 :=
  ⟨fun k hown hne => h.staged k hown (hpush ▸ hne), hentry, h.core3Ok⟩

/-- A step of core 2 that moves no token and enters no function. -/
theorem TxInv.setCore2 (h : TxInv pkt s) (pc : Core2Pc) (hheld : pc.held = s.core2.held)
    (hpush : pc.pushed = s.core2.pushed) (halloc : pc.allocating = false)
    (hfree : pc.freeing = none) (hentry : ∀ k, pc.entry = some k → (s.stage k).own = 1) :
    TxInv pkt { s with core2 := pc } := by
  have hout : outside pkt { s with core2 := pc } = outside pkt s := by
    simp only [outside, hheld, hpush]
  exact ⟨hout ▸ h.ring, h.links.quiet2 halloc hfree, h.staging.setCore2 hpush hentry, h.jumboIds⟩

/-- A step of core 3 that moves no token and enters no function. -/
theorem TxInv.setCore3 (h : TxInv pkt s) (pc : Core3Pc) (hheld : pc.held = s.core3.held)
    (halloc : pc.allocating = false) (hfree : pc.freeing = none)
    (hok : Core3Ok pkt s.stage pc) : TxInv pkt { s with core3 := pc } := by
  have hout : outside pkt { s with core3 := pc } = outside pkt s := by
    simp only [outside, hheld]
  exact ⟨hout ▸ h.ring, h.links.quiet3 halloc hfree,
    ⟨h.staging.staged, h.staging.core2Ok, hok⟩, h.jumboIds⟩

end basic

end ClankerNPU.EagleTx
