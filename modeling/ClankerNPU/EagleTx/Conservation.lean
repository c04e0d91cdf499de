import ClankerNPU.EagleTx.Custody

/-! # No tx token is lost or held twice

    One lemma per kind of step: what core 2 does inside the ring's
    functions, at a TDMA rx descriptor and at a staging entry, and what
    core 3 does while staging and while reading tx done reports. From
    them the invariant holds in every run from the forced reset in which
    no host frame of length zero is staged. A run with one is given
    last: its token is in no place any more. -/

open scoped BigOperators

namespace ClankerNPU.EagleTx

open Circular Bufid Custody

variable {pkt : ℕ} {s s' : TxState}

/-! ## Inside the ring's functions -/

/-- An access of the allocator that does not return yet. -/
theorem TxInv.allocGoesOn (h : TxInv pkt s)
    (hnone : (s.ring.allocStep (txFreeRingEntries - 1)).2 = none)
    (hne : (s.ring.allocStep (txFreeRingEntries - 1)).1.alloc ≠ .idle)
    (hsingle : (s.ring.allocStep (txFreeRingEntries - 1)).1.alloc.single = s.ring.alloc.single) :
    TxInv pkt { s with ring := (s.ring.allocStep (txFreeRingEntries - 1)).1 } := by
  have hring := h.ring.allocStep
  rw [hnone, Option.getD_none, Multiset.coe_nil, add_zero] at hring
  refine ⟨hring, ?_, h.staging, h.jumboIds⟩
  have hlinks := h.links.allocGoesOn hne hsingle
  rwa [← s.ring.allocStep_free (txFreeRingEntries - 1)] at hlinks

/-- An access of the returner that does not publish yet. -/
theorem TxInv.freeGoesOn (h : TxInv pkt s)
    (hnone : (s.ring.freeStep (txFreeRingEntries - 1)).2 = none)
    (hne : (s.ring.freeStep (txFreeRingEntries - 1)).1.free ≠ .idle)
    (hids : (s.ring.freeStep (txFreeRingEntries - 1)).1.free.ids = s.ring.free.ids) :
    TxInv pkt { s with ring := (s.ring.freeStep (txFreeRingEntries - 1)).1 } := by
  have hring := h.ring.freeStep
  rw [hnone, Option.getD_none, Multiset.coe_nil, tsub_zero] at hring
  refine ⟨hring, ?_, h.staging, h.jumboIds⟩
  have hlinks := h.links.freeGoesOn hne hids
  rwa [← s.ring.freeStep_alloc (txFreeRingEntries - 1)] at hlinks

/-- The allocator's last access, after which the ring shares the tokens
    with holders that have `ids` in addition. -/
theorem TxInv.ring_allocated (h : TxInv pkt s) {ids : List ℕ}
    (hsome : (s.ring.allocStep (txFreeRingEntries - 1)).2 = some ids) {held : Multiset ℕ}
    (hheld : held = outside pkt s + ids) :
    RingInv txFreeRingEntries txTokens held (s.ring.allocStep (txFreeRingEntries - 1)).1 := by
  have hring := h.ring.allocStep
  rwa [hsome, Option.getD_some, ← hheld] at hring

/-- The returner's last access, after which the holders are without
    `ids`. -/
theorem TxInv.ring_freed (h : TxInv pkt s) {ids : List ℕ}
    (hsome : (s.ring.freeStep (txFreeRingEntries - 1)).2 = some ids) {held : Multiset ℕ}
    (hheld : held + ids = outside pkt s) :
    RingInv txFreeRingEntries txTokens held (s.ring.freeStep (txFreeRingEntries - 1)).1 := by
  have hring := h.ring.freeStep
  rwa [hsome, Option.getD_some, ← hheld, add_tsub_cancel_right] at hring

/-! ## Core 2 and the TDMA rx rings -/

section core2

variable {t : TdmaRun}

/-- The head of the loop: leave it, skip the descriptor, ask for tokens
    or use one in hand. -/
theorem txInv_head {filled drop : Bool} {ready : ℕ} (h : TxInv pkt s) (hpc : s.core2 = .tdma t)
    (hstep : tdmaHead s filled drop ready = some s') : TxInv pkt s' := by
  simp only [tdmaHead, hpc] at hstep
  split at hstep
  · obtain rfl := Option.some.inj hstep
    exact h.setCore2 _ (by rw [hpc]; rfl) (by rw [hpc]; rfl) rfl rfl notEntry
  split at hstep
  · obtain rfl := Option.some.inj hstep
    exact h.setCore2 _ (by rw [hpc]; rfl) (by rw [hpc]; rfl) rfl rfl notEntry
  split at hstep
  · next htoks =>
    split at hstep
    · next hidle =>
      obtain rfl := Option.some.inj hstep
      have hring := h.ring.setAlloc
        (.take (min ready (if t.budget < 8 then t.budget else 8))) trivial
      have hlinks := h.links
      rw [hidle] at hlinks
      refine ⟨?_, hlinks.enterAlloc2 (by simp) rfl, ?_, h.jumboIds⟩
      · simpa [outside, hpc, Core2Pc.held, Core2Pc.pushed, htoks] using hring
      · exact h.staging.setCore2 (by rw [hpc]; rfl) notEntry
    · cases hstep
  · obtain rfl := Option.some.inj hstep
    exact h.setCore2 _ (by rw [hpc]; rfl) (by rw [hpc]; rfl) rfl rfl notEntry

/-- An access inside `tx_token_alloc_n`: the ids it returns with join
    core 2's batch. -/
theorem txInv_alloc2 (h : TxInv pkt s) (hpc : s.core2 = .tdmaAlloc t)
    (hstep : tdmaAlloc s = some s') : TxInv pkt s' := by
  obtain ⟨hbusy, h3⟩ := h.links.alloc2 (by rw [hpc]; rfl)
  rcases IdRing.allocStep_cases (txFreeRingEntries - 1) hbusy with
    ⟨hnone, hne, hsingle⟩ | ⟨ids, hsome, -⟩
  · have hgo : tdmaAlloc s
        = some { s with ring := (s.ring.allocStep (txFreeRingEntries - 1)).1 } := by
      simp [tdmaAlloc, hpc, hnone]
    obtain rfl := Option.some.inj (hgo.symm.trans hstep)
    exact h.allocGoesOn hnone hne hsingle
  · simp only [tdmaAlloc, hpc, hsome] at hstep
    obtain rfl := Option.some.inj hstep
    have hquiet : Links s.ring.alloc s.ring.free (.tdmaTaken { t with toks := ids }) s.core3 :=
      h.links.quiet2 rfl rfl
    have hlinks : Links (s.ring.allocStep (txFreeRingEntries - 1)).1.alloc s.ring.free
        (.tdmaTaken { t with toks := ids }) s.core3 := hquiet.allocAny rfl h3
    refine ⟨h.ring_allocated hsome ?_, ?_, ?_, h.jumboIds⟩
    · simp only [outside, hpc, Core2Pc.held, Core2Pc.pushed]
      abel
    · simpa using hlinks
    · exact h.staging.setCore2 (by rw [hpc]; rfl) notEntry

/-- A descriptor's buffer is swapped for a fresh one. -/
theorem txInv_take (h : TxInv pkt s) (hpc : s.core2 = .tdmaTaken t)
    (hstep : tdmaTake pkt s = some s') : TxInv pkt s' := by
  cases htoks : t.toks with
  | nil =>
    simp only [tdmaTake, hpc, htoks] at hstep
    obtain rfl := Option.some.inj hstep
    exact h.setCore2 _ (by rw [hpc]; rfl) (by rw [hpc]; rfl) rfl rfl notEntry
  | cons new rest =>
    simp only [tdmaTake, hpc, htoks] at hstep
    obtain rfl := Option.some.inj hstep
    have hnew : new < txFreeRingEntries := by
      refine h.lt_of_mem ?_
      simp [outside, hpc, Core2Pc.held, htoks]
    have hdesc := descTotal_update pkt s.desc (t.ring, t.ridx) (tokAddr pkt new)
    have haddr : descHeld pkt (tokAddr pkt new) = {new} := by
      have hring : txFreeRingEntries = 13312 := rfl
      rw [descHeld, addrTok_tokAddr, Nat.mod_eq_of_lt (by omega)]
    rw [haddr, descHeld] at hdesc
    have hout : outside pkt { s with
        desc := Function.update s.desc (t.ring, t.ridx) (tokAddr pkt new)
        core2 := .tdmaFill { t with toks := rest } (addrTok pkt (s.desc (t.ring, t.ridx))) }
        = outside pkt s := by
      simp only [outside, hpc, Core2Pc.held, Core2Pc.pushed, htoks, ← Multiset.cons_coe,
        ← Multiset.singleton_add]
      calc _ = s.jumbo + (descTotal pkt (Function.update s.desc (t.ring, t.ridx) (tokAddr pkt new))
              + {addrTok pkt (s.desc (t.ring, t.ridx)) % 2 ^ 16}) + rest + s.core3.held
              + stageTotal s.stage none + s.chip := by abel
        _ = _ := by rw [hdesc]; abel
    refine ⟨hout ▸ h.ring, h.links.quiet2 rfl rfl, ?_, h.jumboIds⟩
    exact h.staging.setCore2 (by rw [hpc]; rfl) notEntry

/-- The frame's token goes to the chip, or back to the ring after a
    failed descriptor write. -/
theorem txInv_fill {tok : ℕ} {ok : Bool} (h : TxInv pkt s) (hpc : s.core2 = .tdmaFill t tok)
    (hstep : tdmaFill s ok = some s') : TxInv pkt s' := by
  have htok : tok % 2 ^ 16 ∈ outside pkt s := by
    simp [outside, hpc, Core2Pc.held]
  simp only [tdmaFill, hpc] at hstep
  split at hstep
  · obtain rfl := Option.some.inj hstep
    have hid : chipId (tok % 2 ^ 16) = tok % 2 ^ 16 := by
      have hlt := h.lt_of_mem htok
      have hring : txFreeRingEntries = 13312 := rfl
      exact Nat.mod_eq_of_lt (by omega)
    have hout : outside pkt { s with
        chip := chipId (tok % 2 ^ 16) ::ₘ s.chip
        core2 := .tdmaNext t false } = outside pkt s := by
      simp only [outside, hpc, hid, Core2Pc.held, Core2Pc.pushed, ← Multiset.singleton_add]
      abel
    refine ⟨hout ▸ h.ring, h.links.quiet2 rfl rfl, ?_, h.jumboIds⟩
    exact h.staging.setCore2 (by rw [hpc]; rfl) notEntry
  split at hstep
  · next hidle =>
    obtain rfl := Option.some.inj hstep
    have hout : outside pkt { s with core2 := .tdmaFree t (tok % 2 ^ 16) } = outside pkt s := by
      simp only [outside, hpc, Core2Pc.held, Core2Pc.pushed]
    have hlinks := h.links
    rw [hidle] at hlinks
    refine ⟨?_, hlinks.enterFree2 (by simp) rfl rfl, ?_, h.jumboIds⟩
    · have hring := h.ring.startFree (.tok (tok % 2 ^ 16))
        (by simpa [FreePc.ids] using htok) trivial
      exact hout ▸ hring
    · exact h.staging.setCore2 (by rw [hpc]; rfl) notEntry
  · cases hstep

/-- Core 2 leaves a returning function: what it gave back leaves its
    hands. -/
theorem txInv_leaveFree2 (h : TxInv pkt s) (ids : List ℕ) {pc : Core2Pc}
    {ridx : Fin 2 → Fin 1024} (hfreeing : s.core2.freeing = some ids)
    (hsome : (s.ring.freeStep (txFreeRingEntries - 1)).2 = some s.ring.free.ids)
    (hheld : pc.held + ids = s.core2.held) (hpush : pc.pushed = s.core2.pushed)
    (halloc : pc.allocating = false) (hfree : pc.freeing = none)
    (hentry : ∀ k, pc.entry = some k → (s.stage k).own = 1) :
    TxInv pkt { s with
      ring := (s.ring.freeStep (txFreeRingEntries - 1)).1
      tdmaRidx := ridx
      core2 := pc } := by
  obtain ⟨-, hids, h3⟩ := h.links.free2 ids hfreeing
  rw [hids] at hsome
  have hquiet : Links s.ring.alloc s.ring.free pc s.core3 := h.links.quiet2 halloc hfree
  have hlinks : Links s.ring.alloc (s.ring.freeStep (txFreeRingEntries - 1)).1.free pc s.core3 :=
    hquiet.freeAny hfree h3
  refine ⟨h.ring_freed hsome ?_, ?_, h.staging.setCore2 hpush hentry, h.jumboIds⟩
  · simp only [outside, hpush, ← hheld]
    abel
  · rwa [← s.ring.freeStep_alloc (txFreeRingEntries - 1)] at hlinks

/-- An access inside `tx_token_free` or `tx_token_free_n` on core 2. -/
theorem txInv_free2 (h : TxInv pkt s) (hstep : core2Free s = some s') :
    TxInv pkt s' := by
  have hbusy : ∀ ids, s.core2.freeing = some ids → s.ring.free ≠ .idle :=
    fun ids hf => (h.links.free2 ids hf).1
  cases hpc : s.core2 with
  | tdmaFree t tok =>
    rcases IdRing.freeStep_cases (txFreeRingEntries - 1) (hbusy [tok] (by rw [hpc]; rfl)) with
      ⟨hnone, hne, hids⟩ | ⟨hsome, -⟩
    · have hgo : core2Free s
          = some { s with ring := (s.ring.freeStep (txFreeRingEntries - 1)).1 } := by
        simp [core2Free, hpc, hnone]
      obtain rfl := Option.some.inj (hgo.symm.trans hstep)
      exact h.freeGoesOn hnone hne hids
    · simp only [core2Free, hpc, hsome] at hstep
      obtain rfl := Option.some.inj hstep
      refine txInv_leaveFree2 h [tok] (by rw [hpc]; rfl) hsome ?_ (by rw [hpc]; rfl)
        rfl rfl notEntry
      rw [hpc]
      simp only [Core2Pc.held, Multiset.coe_singleton, ← Multiset.singleton_add]
      abel
  | tdmaFreeN t =>
    rcases IdRing.freeStep_cases (txFreeRingEntries - 1) (hbusy t.toks (by rw [hpc]; rfl)) with
      ⟨hnone, hne, hids⟩ | ⟨hsome, -⟩
    · have hgo : core2Free s
          = some { s with ring := (s.ring.freeStep (txFreeRingEntries - 1)).1 } := by
        simp [core2Free, hpc, hnone]
      obtain rfl := Option.some.inj (hgo.symm.trans hstep)
      exact h.freeGoesOn hnone hne hids
    · simp only [core2Free, hpc, hsome] at hstep
      obtain rfl := Option.some.inj hstep
      refine txInv_leaveFree2 h t.toks (by rw [hpc]; rfl) hsome ?_ (by rw [hpc]; rfl)
        rfl rfl notEntry
      rw [hpc]
      simp [Core2Pc.held]
  | _ => simp [core2Free, hpc] at hstep

/-- The end of the loop: the tokens not used go back. -/
theorem txInv_finish (h : TxInv pkt s) (hpc : s.core2 = .tdmaEnd t)
    (hstep : tdmaFinish s = some s') : TxInv pkt s' := by
  simp only [tdmaFinish, hpc] at hstep
  split at hstep
  · next htoks =>
    obtain rfl := Option.some.inj hstep
    have hidle := h.setCore2 .idle (by rw [hpc]; simp [Core2Pc.held, htoks]) (by rw [hpc]; rfl)
      rfl rfl notEntry
    exact ⟨hidle.ring, hidle.links, hidle.staging, hidle.jumboIds⟩
  split at hstep
  · next hidle =>
    obtain rfl := Option.some.inj hstep
    have hout : outside pkt { s with core2 := .tdmaFreeN t } = outside pkt s := by
      simp only [outside, hpc, Core2Pc.held, Core2Pc.pushed]
    have hlinks := h.links
    rw [hidle] at hlinks
    have htoks : (t.toks : Multiset ℕ) ≤ outside pkt s := by
      have hsplit : outside pkt s = s.jumbo + descTotal pkt s.desc + s.core3.held
          + stageTotal s.stage none + s.chip + t.toks := by
        simp only [outside, hpc, Core2Pc.held, Core2Pc.pushed]
        abel
      rw [hsplit]
      exact le_add_self
    refine ⟨?_, hlinks.enterFree2 (by simp) rfl rfl, ?_, h.jumboIds⟩
    · have hring := h.ring.startFree (.put t.toks) htoks trivial
      exact hout ▸ hring
    · exact h.staging.setCore2 (by rw [hpc]; rfl) notEntry
  · cases hstep

/-! ## Core 2 and the staging entries -/

theorem Core2Pc.entry_of_pushed {pc : Core2Pc} {k : StageKey} (h : pc.pushed = some k) :
    pc.entry = some k := by
  cases pc <;> simp_all [Core2Pc.pushed, Core2Pc.entry]

/-- An entry of a run without empty frames passes the tests of
    `eagle_tx_ring_push`. -/
theorem txInv_pushStart {band : Fin 2} (h : TxInv pkt s) (hpc : s.core2 = .idle)
    (hstep : pushStart s band = some s') : TxInv pkt s' := by
  simp only [pushStart, hpc] at hstep
  split at hstep
  · obtain rfl := Option.some.inj hstep
    exact h
  next hown =>
  have hown : (s.stage (band, s.stageRidx band)).own = 1 := by simpa using hown
  have hpushed : s.core2.pushed ≠ some (band, s.stageRidx band) := by
    rw [hpc]
    simp [Core2Pc.pushed]
  split at hstep
  · obtain rfl := Option.some.inj hstep
    refine h.setCore2 _ (by rw [hpc]; rfl) (by rw [hpc]; rfl) rfl rfl fun k hk => ?_
    obtain rfl := Option.some.inj hk
    exact hown
  · next hskip =>
    -- the token is an id and the length is not 0, so this branch is not taken
    exfalso
    obtain ⟨hlen, -⟩ := h.staging.staged _ hown hpushed
    have hmem : (s.stage (band, s.stageRidx band)).token
        ∈ stageHeld s.stage s.core2.pushed (band, s.stageRidx band) := by
      rw [stageHeld, if_pos ⟨hown, hpushed⟩]
      exact Multiset.mem_singleton_self _
    have hlt := h.lt_of_mem (Multiset.mem_of_le (stageHeld_le_outside pkt s _) hmem)
    have hring : txFreeRingEntries = 13312 := rfl
    exact hskip ⟨by omega, hlen⟩

/-- The token passes from the staging entry to the chip. -/
theorem txInv_give {k : StageKey} {mac : Bool} (h : TxInv pkt s) (hpc : s.core2 = .pushTok k)
    (hstep : pushGive pkt s mac = some s') : TxInv pkt s' := by
  simp only [pushGive, hpc] at hstep
  obtain rfl := Option.some.inj hstep
  have hown := h.staging.core2Ok k (by rw [hpc]; rfl)
  have hpushed : s.core2.pushed ≠ some k := by
    rw [hpc]
    simp [Core2Pc.pushed]
  obtain ⟨-, hbuf⟩ := h.staging.staged k hown hpushed
  have hheld : stageHeld s.stage none k = {(s.stage k).token} := if_pos ⟨hown, by simp⟩
  have hlt : (s.stage k).token < txFreeRingEntries := by
    refine h.lt_of_mem (Multiset.mem_of_le (stageHeld_le_outside pkt s k) ?_)
    rw [stageHeld, if_pos ⟨hown, hpushed⟩]
    exact Multiset.mem_singleton_self _
  have hid : chipId (pushWord pkt mac (s.stage k).buf) = (s.stage k).token := by
    have hring : txFreeRingEntries = 13312 := rfl
    rw [chipId_pushWord, hbuf]
    omega
  have hstage : stageTotal s.stage (some k) + {(s.stage k).token} = stageTotal s.stage none := by
    have hoff := stageTotal_agree_off s.stage s.stage (some k) none k
      (fun i hi => by simp [stageHeld, Ne.symm hi])
    have hgone : stageHeld s.stage (some k) k = 0 := if_neg fun hc => hc.2 rfl
    rwa [hheld, hgone, add_zero] at hoff
  have hout : outside pkt { s with
      chip := chipId (pushWord pkt mac (s.stage k).buf) ::ₘ s.chip
      core2 := .pushClear k } = outside pkt s := by
    simp only [outside, hpc, hid, Core2Pc.held, Core2Pc.pushed, ← hstage,
      ← Multiset.singleton_add]
    abel
  refine ⟨hout ▸ h.ring, h.links.quiet2 rfl rfl, ⟨?_, ?_, h.staging.core3Ok⟩, h.jumboIds⟩
  · intro i hi _
    exact h.staging.staged i hi (by rw [hpc]; simp [Core2Pc.pushed])
  · intro i hi
    obtain rfl := Option.some.inj hi
    exact hown

/-- Core 3 works on another entry than the one core 2 has. -/
theorem TxInv.entry_ne (h : TxInv pkt s) {k k' : StageKey} (h2 : s.core2.entry = some k)
    (h3 : s.core3.entry = some k') : k' ≠ k := by
  rintro rfl
  exact h.staging.core3Ok.own_ne h3 (h.staging.core2Ok _ h2)

theorem txInv_clear {k : StageKey} (h : TxInv pkt s) (hpc : s.core2 = .pushClear k)
    (hstep : pushClear s = some s') : TxInv pkt s' := by
  simp only [pushClear, hpc] at hstep
  obtain rfl := Option.some.inj hstep
  have hentry : s.core2.entry = some k := by rw [hpc]; rfl
  have hown := h.staging.core2Ok k hentry
  have hstage : stageTotal (Function.update s.stage k ⟨0, 0xFFFF, 0, (s.stage k).own⟩) (some k)
      = stageTotal s.stage (some k) := by
    refine stageTotal_congr fun i => ?_
    by_cases hi : i = k
    · simp [stageHeld, hi]
    · simp [stageHeld, Function.update_of_ne hi]
  have hout : outside pkt { s with
      stage := Function.update s.stage k ⟨0, 0xFFFF, 0, (s.stage k).own⟩
      core2 := .pushOwn k } = outside pkt s := by
    simp only [outside, hpc, Core2Pc.held, Core2Pc.pushed, hstage]
  refine ⟨hout ▸ h.ring, h.links.quiet2 rfl rfl, ⟨?_, ?_, ?_⟩, h.jumboIds⟩
  · intro i hi hne
    have hik : i ≠ k := fun heq => hne (by rw [heq]; rfl)
    simp only [Function.update_of_ne hik] at hi ⊢
    exact h.staging.staged i hi (by rw [hpc]; exact hne)
  · intro i hi
    obtain rfl := Option.some.inj hi
    simpa using hown
  · exact h.staging.core3Ok.congr fun i hi => Function.update_of_ne (h.entry_ne hentry hi) _ _

theorem txInv_clearOwn {k : StageKey} (h : TxInv pkt s) (hpc : s.core2 = .pushOwn k)
    (hstep : pushOwn s = some s') : TxInv pkt s' := by
  simp only [pushOwn, hpc] at hstep
  obtain rfl := Option.some.inj hstep
  have hentry : s.core2.entry = some k := by rw [hpc]; rfl
  have hstage : stageTotal (Function.update s.stage k { s.stage k with own := 0 }) none
      = stageTotal s.stage (some k) := by
    refine stageTotal_congr fun i => ?_
    by_cases hi : i = k
    · simp [stageHeld, hi]
    · simp [stageHeld, Function.update_of_ne hi, Ne.symm hi]
  have hout : outside pkt { s with
      stage := Function.update s.stage k { s.stage k with own := 0 }
      stageRidx := Function.update s.stageRidx k.1 (stageNext k.2)
      core2 := .idle } = outside pkt s := by
    simp only [outside, hpc, Core2Pc.held, Core2Pc.pushed, hstage]
  refine ⟨hout ▸ h.ring, h.links.quiet2 rfl rfl, ⟨?_, notEntry, ?_⟩, h.jumboIds⟩
  · intro i hi _
    by_cases hik : i = k
    · subst hik
      simp at hi
    · simp only [Function.update_of_ne hik] at hi ⊢
      refine h.staging.staged i hi ?_
      rw [hpc]
      simp [Core2Pc.pushed, Ne.symm hik]
  · exact h.staging.core3Ok.congr fun i hi => Function.update_of_ne (h.entry_ne hentry hi) _ _

/-- Every step of core 2 keeps the invariant. -/
theorem txInv_core2 {a : Core2Action} (h : TxInv pkt s) (hstep : core2Step pkt s a = some s') :
    TxInv pkt s' := by
  -- an action has its place in core 2; anywhere else it is not enabled
  cases a with
  | tdmaStart ring budget =>
    cases hpc : s.core2 with
    | idle =>
      simp only [core2Step, tdmaStart, hpc, Option.some.injEq] at hstep
      subst hstep
      exact h.setCore2 _ (by rw [hpc]; rfl) (by rw [hpc]; rfl) rfl rfl notEntry
    | _ => simp [core2Step, tdmaStart, hpc] at hstep
  | head filled drop ready =>
    cases hpc : s.core2 with
    | tdma t => exact txInv_head h hpc hstep
    | _ => simp [core2Step, tdmaHead, hpc] at hstep
  | alloc =>
    cases hpc : s.core2 with
    | tdmaAlloc t => exact txInv_alloc2 h hpc hstep
    | _ => simp [core2Step, tdmaAlloc, hpc] at hstep
  | take =>
    cases hpc : s.core2 with
    | tdmaTaken t => exact txInv_take h hpc hstep
    | _ => simp [core2Step, tdmaTake, hpc] at hstep
  | fill ok =>
    cases hpc : s.core2 with
    | tdmaFill t tok => exact txInv_fill h hpc hstep
    | _ => simp [core2Step, tdmaFill, hpc] at hstep
  | free => exact txInv_free2 h hstep
  | next =>
    cases hpc : s.core2 with
    | tdmaNext t stop =>
      simp only [core2Step, tdmaNext, hpc] at hstep
      split at hstep
      all_goals
        obtain rfl := Option.some.inj hstep
        exact h.setCore2 _ (by rw [hpc]; rfl) (by rw [hpc]; rfl) rfl rfl notEntry
    | _ => simp [core2Step, tdmaNext, hpc] at hstep
  | finish =>
    cases hpc : s.core2 with
    | tdmaEnd t => exact txInv_finish h hpc hstep
    | _ => simp [core2Step, tdmaFinish, hpc] at hstep
  | pushStart band =>
    cases hpc : s.core2 with
    | idle => exact txInv_pushStart h hpc hstep
    | _ => simp [core2Step, pushStart, hpc] at hstep
  | give mac =>
    cases hpc : s.core2 with
    | pushTok k => exact txInv_give h hpc hstep
    | _ => simp [core2Step, pushGive, hpc] at hstep
  | clear =>
    cases hpc : s.core2 with
    | pushClear k => exact txInv_clear h hpc hstep
    | _ => simp [core2Step, pushClear, hpc] at hstep
  | clearOwn =>
    cases hpc : s.core2 with
    | pushOwn k => exact txInv_clearOwn h hpc hstep
    | _ => simp [core2Step, pushOwn, hpc] at hstep

end core2

/-! ## Core 3 staging a host frame -/

section core3

/-- The guard of the runs without empty frames: a host frame that is
    neither refused nor dropped at the start has a length. -/
def StagesLength (s : TxState) : Core3Action → Prop
  | .stageStart band hdr drop =>
    (s.stage (band, s.stageWidx band)).own = 1 ∨ drop = true ∨ hostLen hdr ≠ 0
  | _ => True

theorem txInv_stageStart {band : Fin 2} {hdr : ℕ} {drop : Bool} (h : TxInv pkt s)
    (hpc : s.core3 = .idle) (hlen : StagesLength s (.stageStart band hdr drop))
    (hstep : stageStart s band hdr drop = some s') : TxInv pkt s' := by
  simp only [stageStart, hpc] at hstep
  split at hstep
  · obtain rfl := Option.some.inj hstep
    exact h
  next hown =>
  split at hstep
  · obtain rfl := Option.some.inj hstep
    exact h
  · next hdrop =>
    obtain rfl := Option.some.inj hstep
    have hne : hostLen hdr ≠ 0 := by
      rcases hlen with h1 | h1 | h1
      · exact absurd h1 hown
      · exact absurd h1 hdrop
      · exact h1
    exact h.setCore3 _ (by rw [hpc]; rfl) rfl rfl ⟨hown, hne⟩

/-- Recording something in an entry that is not core 2's moves no token. -/
theorem TxInv.record (h : TxInv pkt s) (k : StageKey) (e : StageEntry) (pc : Core3Pc)
    (hentry : (s.stage k).own ≠ 1) (he : e.own ≠ 1) (hheld : pc.held = s.core3.held)
    (halloc : pc.allocating = false) (hfree : pc.freeing = none)
    (hok : Core3Ok pkt (Function.update s.stage k e) pc) :
    TxInv pkt { s with stage := Function.update s.stage k e, core3 := pc } := by
  -- an entry that is not owned holds no token, before or after
  have hstage : stageTotal (Function.update s.stage k e) s.core2.pushed
      = stageTotal s.stage s.core2.pushed := by
    refine stageTotal_congr fun i => ?_
    by_cases hi : i = k
    · simp [stageHeld, hi, hentry, he]
    · simp [stageHeld, Function.update_of_ne hi]
  have hout : outside pkt { s with stage := Function.update s.stage k e, core3 := pc }
      = outside pkt s := by
    simp only [outside, hheld, hstage]
  refine ⟨hout ▸ h.ring, h.links.quiet3 halloc hfree, ⟨?_, ?_, hok⟩, h.jumboIds⟩
  · intro i hi hne
    by_cases hik : i = k
    · subst hik
      simp [he] at hi
    · simp only [Function.update_of_ne hik] at hi ⊢
      exact h.staging.staged i hi hne
  · intro i hi
    have hown := h.staging.core2Ok i hi
    have hik : i ≠ k := fun heq => hentry (heq ▸ hown)
    simpa [Function.update_of_ne hik] using hown

theorem tokHeld_none : tokHeld (-1) = 0 := if_pos rfl

/-- A token id as an allocation's result stands for itself. -/
theorem tokHeld_of_lt {t : ℕ} (h : t < txFreeRingEntries) : tokHeld t = {t} := by
  have hring : txFreeRingEntries = 13312 := rfl
  have hne : (t : ℤ) ≠ -1 := by omega
  rw [tokHeld, if_neg hne, u16_natCast_of_lt (by omega)]

/-- The result of a single allocation stands for the id it took. -/
theorem tokHeld_allocRet {ids : List ℕ} (hlen : ids.length ≤ 1)
    (hlt : ∀ id ∈ ids, id < txFreeRingEntries) : tokHeld (allocRet ids) = ids := by
  match ids with
  | [] => exact tokHeld_none
  | [id] =>
    have hid := hlt id (List.mem_singleton_self id)
    have hring : txFreeRingEntries = 13312 := rfl
    rw [allocRet, s16_of_lt (by omega), tokHeld_of_lt hid]
    rfl
  | _ :: _ :: _ => simp at hlen

theorem txInv_stageLen {k : StageKey} {len : ℕ} (h : TxInv pkt s) (hpc : s.core3 = .stage k len)
    (hstep : stageLen s = some s') : TxInv pkt s' := by
  have hok := h.staging.core3Ok
  rw [hpc] at hok
  obtain ⟨hown, hlen⟩ := hok
  have hmin : min len (2 * eagleTxBufBytes) ≠ 0 := by
    have hbytes : eagleTxBufBytes = 2048 := rfl
    omega
  simp only [stageLen, hpc] at hstep
  split at hstep
  · -- the jumbo stack is core 3's own: the token is taken at once
    have hrec := h.record k { s.stage k with len := min len (2 * eagleTxBufBytes) }
      (.stageTok k (min len (2 * eagleTxBufBytes)) (-1)) hown hown
      (by rw [hpc]; rfl) rfl rfl ⟨by simpa using hown, by simp, hmin⟩
    cases hjumbo : s.jumbo with
    | nil =>
      simp only [hjumbo] at hstep
      obtain rfl := Option.some.inj hstep
      rw [hjumbo] at hrec
      exact hrec
    | cons token rest =>
      simp only [hjumbo] at hstep
      obtain rfl := Option.some.inj hstep
      have htok : tokHeld token = {token} := by
        refine tokHeld_of_lt (h.lt_of_mem ?_)
        simp [outside, hjumbo]
      refine ⟨?_, hrec.links.quiet3 rfl rfl, ⟨hrec.staging.staged, hrec.staging.core2Ok, ?_⟩, ?_⟩
      · have hout := hrec.ring
        simp only [outside, Core3Pc.held, hjumbo, tokHeld_none, htok, ← Multiset.cons_coe,
          ← Multiset.singleton_add] at hout ⊢
        convert hout using 1
        abel
      · exact ⟨by simpa using hown, by simp, hmin⟩
      · intro t ht
        exact h.jumboIds t (by rw [hjumbo]; exact List.mem_cons_of_mem _ ht)
  split at hstep
  · -- the ring is shared: core 3 enters its allocation
    next hidle =>
    obtain rfl := Option.some.inj hstep
    have hrec := h.record k { s.stage k with len := len } .idle hown hown
      (by rw [hpc]; rfl) rfl rfl trivial
    have hlinks := hrec.links
    rw [hidle] at hlinks
    refine ⟨?_, hlinks.enterAlloc3 rfl rfl, ⟨hrec.staging.staged, hrec.staging.core2Ok, ?_⟩,
      h.jumboIds⟩
    · have hring := hrec.ring.setAlloc .one trivial
      rw [Multiset.coe_nil, add_zero] at hring
      exact hring
    · exact ⟨by simpa using hown, by simp, hlen⟩
  · cases hstep

/-- An access inside `tx_token_alloc`. -/
theorem txInv_alloc3 {k : StageKey} {len : ℕ} (h : TxInv pkt s)
    (hpc : s.core3 = .stageAlloc k len) (hstep : stageAlloc s = some s') :
    TxInv pkt s' := by
  have hsingle := h.links.alloc3 (by rw [hpc]; rfl)
  have hbusy : s.ring.alloc ≠ .idle := by
    intro hidle
    rw [hidle] at hsingle
    cases hsingle
  have h2 : s.core2.allocating = false := by
    by_contra hne
    have := (h.links.alloc2 (by simpa using hne)).2
    rw [hpc] at this
    cases this
  have hok := h.staging.core3Ok
  rw [hpc] at hok
  rcases IdRing.allocStep_cases (txFreeRingEntries - 1) hbusy with
    ⟨hnone, hne, hkeep⟩ | ⟨ids, hsome, hone⟩
  · have hgo : stageAlloc s
        = some { s with ring := (s.ring.allocStep (txFreeRingEntries - 1)).1 } := by
      simp [stageAlloc, hpc, hnone]
    obtain rfl := Option.some.inj (hgo.symm.trans hstep)
    exact h.allocGoesOn hnone hne hkeep
  · simp only [stageAlloc, hpc, hsome] at hstep
    obtain rfl := Option.some.inj hstep
    have hquiet : Links s.ring.alloc s.ring.free s.core2 (.stageTok k len (allocRet ids)) :=
      h.links.quiet3 rfl rfl
    have hlinks : Links (s.ring.allocStep (txFreeRingEntries - 1)).1.alloc s.ring.free s.core2
        (.stageTok k len (allocRet ids)) := hquiet.allocAny h2 rfl
    have hring := h.ring_allocated hsome rfl
    have hret : tokHeld (allocRet ids) = (ids : Multiset ℕ) := by
      refine tokHeld_allocRet (hone hsingle) fun id hid => (mem_txTokens.mp ?_).1
      rw [← hring.conserved]
      simp [hid]
    refine ⟨h.ring_allocated hsome ?_, ?_,
      ⟨h.staging.staged, h.staging.core2Ok, hok⟩, h.jumboIds⟩
    · simp only [outside, hpc, Core3Pc.held, hret]
      abel
    · simpa using hlinks

theorem txInv_stageTok {k : StageKey} {len : ℕ} {token : ℤ} (h : TxInv pkt s)
    (hpc : s.core3 = .stageTok k len token) (hstep : stageTok s = some s') :
    TxInv pkt s' := by
  have hok := h.staging.core3Ok
  rw [hpc] at hok
  obtain ⟨hown, hlen, hne⟩ := hok
  simp only [stageTok, hpc] at hstep
  split at hstep
  · next htok =>
    obtain rfl := Option.some.inj hstep
    exact h.record k { s.stage k with token := u16 token } .idle hown hown
      (by rw [hpc, htok]; exact tokHeld_none.symm) rfl rfl trivial
  · next htok =>
    obtain rfl := Option.some.inj hstep
    exact h.record k { s.stage k with token := u16 token } (.stageCopy k len token)
      hown hown (by rw [hpc]; rfl) rfl rfl
      ⟨by simpa using hown, by simpa using hlen, hne, htok, by simp⟩

theorem txInv_stageCopy {k : StageKey} {len : ℕ} {token : ℤ} (h : TxInv pkt s)
    (hpc : s.core3 = .stageCopy k len token) (hstep : stageCopy pkt s = some s') :
    TxInv pkt s' := by
  have hok := h.staging.core3Ok
  rw [hpc] at hok
  obtain ⟨hown, hlen, hne, htok, hrec⟩ := hok
  simp only [stageCopy, hpc, if_pos hne] at hstep
  obtain rfl := Option.some.inj hstep
  refine h.record k { s.stage k with buf := tokAddr pkt (u32 token) }
    (.stageOwn k token) hown hown (by rw [hpc]; rfl) rfl rfl ?_
  refine ⟨by simpa using hown, ?_, htok, by simpa using hrec⟩
  rw [Function.update_self]
  refine ⟨hlen ▸ hne, ?_⟩
  rw [addrTok_tokAddr, hrec, u32_mod_u16]

/-- Setting the own flag passes the token from core 3 to the entry. -/
theorem txInv_stageOwn {k : StageKey} {token : ℤ} (h : TxInv pkt s)
    (hpc : s.core3 = .stageOwn k token) (hstep : stageOwn s = some s') :
    TxInv pkt s' := by
  have hok := h.staging.core3Ok
  rw [hpc] at hok
  obtain ⟨hown, hentry, htok, hrec⟩ := hok
  simp only [stageOwn, hpc] at hstep
  obtain rfl := Option.some.inj hstep
  have hpushed : s.core2.pushed ≠ some k := by
    intro hp
    exact hown (h.staging.core2Ok k (Core2Pc.entry_of_pushed hp))
  have hstage : stageTotal (Function.update s.stage k { s.stage k with own := 1 }) s.core2.pushed
      = stageTotal s.stage s.core2.pushed + {(s.stage k).token} := by
    have hoff := stageTotal_agree_off (Function.update s.stage k { s.stage k with own := 1 })
      s.stage s.core2.pushed s.core2.pushed k
      (fun i hi => by simp [stageHeld, Function.update_of_ne hi])
    have hold : stageHeld s.stage s.core2.pushed k = 0 := if_neg fun hc => hown hc.1
    have hnew : stageHeld (Function.update s.stage k { s.stage k with own := 1 }) s.core2.pushed k
        = {(s.stage k).token} := by
      simp [stageHeld, hpushed]
    rwa [hold, hnew, add_zero] at hoff
  have hout : outside pkt { s with
      stage := Function.update s.stage k { s.stage k with own := 1 }
      stageWidx := Function.update s.stageWidx k.1 (stageNext k.2)
      core3 := .idle } = outside pkt s := by
    simp only [outside, hpc, Core3Pc.held, hstage, tokHeld, if_neg htok, ← hrec]
    abel
  refine ⟨hout ▸ h.ring, h.links.quiet3 rfl rfl, ⟨?_, ?_, trivial⟩, h.jumboIds⟩
  · intro i hi hne
    by_cases hik : i = k
    · subst hik
      simpa [EntryOk] using hentry
    · simp only [Function.update_of_ne hik] at hi ⊢
      exact h.staging.staged i hi hne
  · intro i hi
    by_cases hik : i = k
    · simp [hik]
    · simpa [Function.update_of_ne hik] using h.staging.core2Ok i hi

/-! ## Core 3 reading tx done reports -/

/-- The chip's promise about a report: it is well formed and lists tokens
    the chip has. -/
def ReportsOnce (s : TxState) : Core3Action → Prop
  | .report r => r.WellFormed ∧ (r.listed : Multiset ℕ) ≤ s.chip
  | _ => True

/-- Tokens pass from the chip to core 3. -/
theorem TxInv.report {toks freed : List ℕ} (h : TxInv pkt s) (hpc : s.core3 = .done [] toks)
    (hchip : (freed : Multiset ℕ) ≤ s.chip) :
    TxInv pkt { s with chip := s.chip - freed, core3 := .done freed toks } := by
  have hout : outside pkt { s with chip := s.chip - freed, core3 := .done freed toks }
      = outside pkt s := by
    obtain ⟨left, hleft⟩ := Multiset.le_iff_exists_add.mp hchip
    have hsub : s.chip - freed = left := by
      rw [hleft, add_tsub_cancel_left]
    simp only [outside, hpc, Core3Pc.held, hsub, Multiset.coe_nil, zero_add]
    rw [hleft]
    abel
  exact ⟨hout ▸ h.ring, h.links.quiet3 rfl rfl,
    ⟨h.staging.staged, h.staging.core2Ok, trivial⟩, h.jumboIds⟩

/-- The tokens of a report pass from the chip to core 3. -/
theorem txInv_report {toks : List ℕ} {r : TxReport} (h : TxInv pkt s)
    (hpc : s.core3 = .done [] toks) (hrep : ReportsOnce s (.report r))
    (hstep : pollReport s r = some s') : TxInv pkt s' := by
  obtain ⟨hwf, hchip⟩ := hrep
  simp only [pollReport, hpc] at hstep
  obtain rfl := Option.some.inj hstep
  have hfreed : r.freed = r.listed := by
    rw [hwf.freed_eq, List.filter_eq_self]
    intro t ht
    have hmem : t ∈ outside pkt s := Multiset.mem_of_le (hchip.trans le_add_self) ht
    have hlt := h.lt_of_mem hmem
    have hring : txFreeRingEntries = 13312 := rfl
    simp only [decide_eq_true_eq]
    omega
  rw [hfreed]
  exact h.report hpc hchip

/-- While a jumbo token is elsewhere the jumbo stack has room for it. -/
theorem TxInv.jumbo_room (h : TxInv pkt s) {t : ℕ} {rest : Multiset ℕ} (ht : txJumboFirst ≤ t)
    (hout : outside pkt s = (s.jumbo : Multiset ℕ) + {t} + rest) :
    s.jumbo.length < txJumboPairs := by
  have hle : (s.jumbo : Multiset ℕ) + {t} ≤ txTokens.filter (txJumboFirst ≤ ·) := by
    rw [Multiset.le_filter]
    refine ⟨(le_self_add.trans_eq hout.symm).trans h.outside_le, ?_⟩
    intro x hx
    rcases Multiset.mem_add.mp hx with hx | hx
    · exact h.jumboIds x hx
    · rw [Multiset.mem_singleton.mp hx]
      exact ht
  have hcard := Multiset.card_le_card hle
  have hfew : (txTokens.filter (txJumboFirst ≤ ·)).card = txJumboPairs := by
    have hlow : (Multiset.range txJumboFirst).filter (txJumboFirst ≤ ·) = 0 := by
      rw [Multiset.filter_eq_nil]
      intro x hx
      exact Nat.not_le.mpr (Multiset.mem_range.mp hx)
    have hhigh : ((Multiset.range txJumboPairs).map fun i => txJumboFirst + 2 * i).filter
        (txJumboFirst ≤ ·) = (Multiset.range txJumboPairs).map fun i => txJumboFirst + 2 * i := by
      rw [Multiset.filter_eq_self]
      intro x hx
      obtain ⟨i, -, rfl⟩ := Multiset.mem_map.mp hx
      exact Nat.le_add_right _ _
    unfold txTokens
    rw [Multiset.filter_add, hlow, hhigh, zero_add, Multiset.card_map, Multiset.card_range]
  rw [hfew] at hcard
  simp only [Multiset.card_add, Multiset.coe_card, Multiset.card_singleton] at hcard
  omega

/-- `eagle_tok_free`: a jumbo token goes on its stack, another one into
    the batch, which goes back when it is full. -/
theorem txInv_put {t : ℕ} {rest toks : List ℕ} (h : TxInv pkt s)
    (hpc : s.core3 = .done (t :: rest) toks) (hstep : pollPut s = some s') :
    TxInv pkt s' := by
  have hsplit : outside pkt s = s.jumbo + {t} + (rest + toks + (descTotal pkt s.desc
      + s.core2.held + stageTotal s.stage s.core2.pushed + s.chip)) := by
    simp only [outside, hpc, Core3Pc.held, ← Multiset.cons_coe, ← Multiset.singleton_add]
    abel
  simp only [pollPut, hpc] at hstep
  split at hstep
  · next ht =>
    obtain rfl := Option.some.inj hstep
    -- a jumbo token outside its stack leaves room on it
    have hroom := h.jumbo_room ht hsplit
    have hout : outside pkt { s with
        jumbo := if s.jumbo.length < txJumboPairs then t :: s.jumbo else s.jumbo
        core3 := .done rest toks } = outside pkt s := by
      rw [hsplit]
      simp only [outside, if_pos hroom, Core3Pc.held, ← Multiset.cons_coe,
        ← Multiset.singleton_add]
      abel
    refine ⟨hout ▸ h.ring, h.links.quiet3 rfl rfl,
      ⟨h.staging.staged, h.staging.core2Ok, trivial⟩, ?_⟩
    intro x hx
    simp only [if_pos hroom, List.mem_cons] at hx
    rcases hx with rfl | hx
    · exact ht
    · exact h.jumboIds x hx
  -- an ordinary token joins the batch
  have hout : ∀ (pc : Core3Pc), pc.held = (rest : Multiset ℕ) + (toks ++ [t] : List ℕ) →
      outside pkt { s with core3 := pc } = outside pkt s := by
    intro pc hpc'
    rw [hsplit]
    simp only [outside, hpc', ← Multiset.coe_add, Multiset.coe_singleton]
    abel
  split at hstep
  · split at hstep
    · next hidle =>
      obtain rfl := Option.some.inj hstep
      have heq := hout (.doneFree rest (toks ++ [t])) rfl
      have hlinks := h.links
      rw [hidle] at hlinks
      refine ⟨?_, hlinks.enterFree3 (by simp) rfl rfl,
        ⟨h.staging.staged, h.staging.core2Ok, trivial⟩, h.jumboIds⟩
      have hring := h.ring.startFree (.put (toks ++ [t])) ?_ trivial
      · exact heq ▸ hring
      · rw [hsplit]
        have hmine : (s.jumbo + {t} + (rest + toks + (descTotal pkt s.desc
            + s.core2.held + stageTotal s.stage s.core2.pushed + s.chip)) : Multiset ℕ)
            = (s.jumbo + rest + (descTotal pkt s.desc + s.core2.held
              + stageTotal s.stage s.core2.pushed + s.chip)) + (toks + {t}) := by
          abel
        rw [hmine]
        exact le_add_self
    · cases hstep
  · obtain rfl := Option.some.inj hstep
    exact ⟨hout (.done rest (toks ++ [t])) rfl ▸ h.ring, h.links.quiet3 rfl rfl,
      ⟨h.staging.staged, h.staging.core2Ok, trivial⟩, h.jumboIds⟩

/-- Core 3 leaves `tx_token_free_n`. -/
theorem txInv_leaveFree3 (h : TxInv pkt s) (ids : List ℕ) {pc : Core3Pc}
    (hfreeing : s.core3.freeing = some ids)
    (hsome : (s.ring.freeStep (txFreeRingEntries - 1)).2 = some s.ring.free.ids)
    (hheld : pc.held + ids = s.core3.held) (halloc : pc.allocating = false)
    (hfree : pc.freeing = none) (hok : Core3Ok pkt s.stage pc) :
    TxInv pkt { s with
      ring := (s.ring.freeStep (txFreeRingEntries - 1)).1
      core3 := pc } := by
  obtain ⟨-, hids, h2⟩ := h.links.free3 ids hfreeing
  rw [hids] at hsome
  have hquiet : Links s.ring.alloc s.ring.free s.core2 pc := h.links.quiet3 halloc hfree
  have hlinks : Links s.ring.alloc (s.ring.freeStep (txFreeRingEntries - 1)).1.free s.core2 pc :=
    hquiet.freeAny h2 hfree
  refine ⟨h.ring_freed hsome ?_, ?_, ⟨h.staging.staged, h.staging.core2Ok, hok⟩, h.jumboIds⟩
  · simp only [outside, ← hheld]
    abel
  · rwa [← s.ring.freeStep_alloc (txFreeRingEntries - 1)] at hlinks

theorem txInv_free3 (h : TxInv pkt s) (hstep : core3Free s = some s') :
    TxInv pkt s' := by
  have hbusy : ∀ ids, s.core3.freeing = some ids → s.ring.free ≠ .idle :=
    fun ids hf => (h.links.free3 ids hf).1
  cases hpc : s.core3 with
  | doneFree rest toks =>
    rcases IdRing.freeStep_cases (txFreeRingEntries - 1) (hbusy toks (by rw [hpc]; rfl)) with
      ⟨hnone, hne, hids⟩ | ⟨hsome, -⟩
    · have hgo : core3Free s
          = some { s with ring := (s.ring.freeStep (txFreeRingEntries - 1)).1 } := by
        simp [core3Free, hpc, hnone]
      obtain rfl := Option.some.inj (hgo.symm.trans hstep)
      exact h.freeGoesOn hnone hne hids
    · simp only [core3Free, hpc, hsome] at hstep
      obtain rfl := Option.some.inj hstep
      exact txInv_leaveFree3 h toks (by rw [hpc]; rfl) hsome (by rw [hpc]; simp [Core3Pc.held])
        rfl rfl trivial
  | doneEnd toks =>
    rcases IdRing.freeStep_cases (txFreeRingEntries - 1) (hbusy toks (by rw [hpc]; rfl)) with
      ⟨hnone, hne, hids⟩ | ⟨hsome, -⟩
    · have hgo : core3Free s
          = some { s with ring := (s.ring.freeStep (txFreeRingEntries - 1)).1 } := by
        simp [core3Free, hpc, hnone]
      obtain rfl := Option.some.inj (hgo.symm.trans hstep)
      exact h.freeGoesOn hnone hne hids
    · simp only [core3Free, hpc, hsome] at hstep
      obtain rfl := Option.some.inj hstep
      exact txInv_leaveFree3 h toks (by rw [hpc]; rfl) hsome (by rw [hpc]; simp [Core3Pc.held])
        rfl rfl trivial
  | _ => simp [core3Free, hpc] at hstep

/-- The end of the poll: what is left of the batch goes back. -/
theorem txInv_pollEnd {toks : List ℕ} (h : TxInv pkt s) (hpc : s.core3 = .done [] toks)
    (hstep : pollEnd s = some s') : TxInv pkt s' := by
  simp only [pollEnd, hpc] at hstep
  split at hstep
  · next htoks =>
    obtain rfl := Option.some.inj hstep
    exact h.setCore3 .idle (by rw [hpc, htoks]; simp [Core3Pc.held]) rfl rfl trivial
  split at hstep
  · next hidle =>
    obtain rfl := Option.some.inj hstep
    have hsplit : outside pkt s = (s.jumbo + descTotal pkt s.desc + s.core2.held
        + stageTotal s.stage s.core2.pushed + s.chip) + toks := by
      simp only [outside, hpc, Core3Pc.held, Multiset.coe_nil]
      abel
    have hout : outside pkt { s with core3 := .doneEnd toks } = outside pkt s := by
      rw [hsplit]
      simp only [outside, Core3Pc.held]
      abel
    have hlinks := h.links
    rw [hidle] at hlinks
    refine ⟨?_, hlinks.enterFree3 (by simp) rfl rfl,
      ⟨h.staging.staged, h.staging.core2Ok, trivial⟩, h.jumboIds⟩
    have hring := h.ring.startFree (.put toks) (hsplit ▸ le_add_self) trivial
    exact hout ▸ hring
  · cases hstep

/-- Every step of core 3 that stages no empty frame keeps the invariant. -/
theorem txInv_core3 {a : Core3Action} (h : TxInv pkt s) (hlen : StagesLength s a)
    (hrep : ReportsOnce s a) (hstep : core3Step pkt s a = some s') : TxInv pkt s' := by
  -- an action has its place in core 3; anywhere else it is not enabled
  cases a with
  | stageStart band hdr drop =>
    cases hpc : s.core3 with
    | idle => exact txInv_stageStart h hpc hlen hstep
    | _ => simp [core3Step, stageStart, hpc] at hstep
  | stageLen =>
    cases hpc : s.core3 with
    | stage k len => exact txInv_stageLen h hpc hstep
    | _ => simp [core3Step, stageLen, hpc] at hstep
  | alloc =>
    cases hpc : s.core3 with
    | stageAlloc k len => exact txInv_alloc3 h hpc hstep
    | _ => simp [core3Step, stageAlloc, hpc] at hstep
  | stageTok =>
    cases hpc : s.core3 with
    | stageTok k len token => exact txInv_stageTok h hpc hstep
    | _ => simp [core3Step, stageTok, hpc] at hstep
  | stageCopy =>
    cases hpc : s.core3 with
    | stageCopy k len token => exact txInv_stageCopy h hpc hstep
    | _ => simp [core3Step, stageCopy, hpc] at hstep
  | stageOwn =>
    cases hpc : s.core3 with
    | stageOwn k token => exact txInv_stageOwn h hpc hstep
    | _ => simp [core3Step, stageOwn, hpc] at hstep
  | pollStart =>
    cases hpc : s.core3 with
    | idle =>
      simp only [core3Step, pollStart, hpc, Option.some.injEq] at hstep
      subst hstep
      exact h.setCore3 _ (by rw [hpc]; rfl) rfl rfl trivial
    | _ => simp [core3Step, pollStart, hpc] at hstep
  | report r =>
    cases hpc : s.core3 with
    | done rest toks =>
      cases rest with
      | nil => exact txInv_report h hpc hrep hstep
      | cons t rest => simp [core3Step, pollReport, hpc] at hstep
    | _ => simp [core3Step, pollReport, hpc] at hstep
  | put =>
    cases hpc : s.core3 with
    | done rest toks =>
      cases rest with
      | nil => simp [core3Step, pollPut, hpc] at hstep
      | cons t rest => exact txInv_put h hpc hstep
    | _ => simp [core3Step, pollPut, hpc] at hstep
  | free => exact txInv_free3 h hstep
  | pollEnd =>
    cases hpc : s.core3 with
    | done rest toks =>
      cases rest with
      | nil => exact txInv_pollEnd h hpc hstep
      | cons t rest => simp [core3Step, pollEnd, hpc] at hstep
    | _ => simp [core3Step, pollEnd, hpc] at hstep

end core3

end ClankerNPU.EagleTx
