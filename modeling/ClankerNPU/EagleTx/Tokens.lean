import ClankerNPU.EagleTx.Conservation

/-! # Every tx token is in one place

    The system starts as `np_skb_tx_force_reset` leaves it. In every run
    that stages no host frame of length zero each token has one place.
    `eagle_tx_stage` gives a frame of length zero a token like any
    other, but `eagle_tx_ring_push` clears its entry without passing the
    token on; the last section follows such a frame. -/

open scoped BigOperators

namespace ClankerNPU.EagleTx

open Circular Bufid Custody

variable {pkt : ℕ} {s s' : TxState}

/-! ## The system -/

/-- The state after the forced reset: the tokens found under the TDMA rx
    descriptors are distinct and below the jumbo ids, the staging rings
    are empty, the chip has no frame. -/
structure ResetStart (pkt : ℕ) (s : TxState) : Prop where
  ring : ∃ b : Build, ∃ slot, b.soc = .an7583 ∧ b.wifiEagle = true ∧
    s.ring = npSkbTxForceReset b (tdmaRxCollectBufids pkt s.desc) slot
  distinct : (tdmaRxCollectBufids pkt s.desc).Nodup
  below : ∀ id ∈ tdmaRxCollectBufids pkt s.desc, id < txJumboFirst
  jumbo : s.jumbo = txJumboReset
  empty : ∀ k, (s.stage k).own ≠ 1
  chip : s.chip = 0
  core2 : s.core2 = .idle
  core3 : s.core3 = .idle

/-- A step of one of the cores. -/
inductive TxAction where
  | core2 (a : Core2Action)
  | core3 (a : Core3Action)

/-- Cores 2 and 3 interleave; the chip reports a token it was given once. -/
def txSystem (pkt : ℕ) : StepSystem TxState TxAction where
  init := ResetStart pkt
  step := fun s a s' =>
    match a with
    | .core2 a => core2Step pkt s a = some s'
    | .core3 a => ReportsOnce s a ∧ core3Step pkt s a = some s'

/-- The runs in which no host frame of length zero is staged. -/
def NoEmptyFrame (s : TxState) : TxAction → Prop
  | .core2 _ => True
  | .core3 a => StagesLength s a

theorem txTokenIds_of_jumbo {b : Build} (hsoc : b.soc = .an7583) (hwifi : b.wifiEagle = true) :
    txTokenIds b = txJumboFirst := by
  have hjumbo : b.hasEagleTxJumbo = true := by
    simp [Build.hasEagleTxJumbo, Build.hasNpuWifiTx, Build.hasWifi, hsoc, hwifi]
  exact if_pos hjumbo

/-- The ring after the reset. -/
theorem ResetStart.ring_eq (h : ResetStart pkt s) :
    ∃ slot, s.ring = { slot := slot, ridx := 2 * 1024, widx := txJumboFirst,
                       alloc := .idle, free := .idle } := by
  obtain ⟨b, slot, hsoc, hwifi, hring⟩ := h.ring
  have hids := txTokenIds_of_jumbo hsoc hwifi
  rw [npSkbTxForceReset_eq slot h.distinct (hids ▸ h.below), hids,
    length_tdmaRxCollectBufids] at hring
  exact ⟨_, hring⟩

/-- The reset puts every token in one place. -/
theorem txInv_init (h : ResetStart pkt s) : TxInv pkt s := by
  obtain ⟨b, slot, hsoc, hwifi, hring⟩ := h.ring
  obtain ⟨slot', hring'⟩ := h.ring_eq
  have hids := txTokenIds_of_jumbo hsoc hwifi
  have hlen := length_tdmaRxCollectBufids pkt s.desc
  have hfirst : txJumboFirst = 13056 := rfl
  have hstored : s.ring.stored txFreeRingEntries = unparked b (tdmaRxCollectBufids pkt s.desc) := by
    rw [hring]
    exact stored_npSkbTxForceReset slot h.distinct (hids ▸ h.below) (by omega)
  have hstage : stageTotal s.stage none = 0 :=
    stageTotal_eq_zero fun k => if_neg fun hc => h.empty k hc.1
  refine ⟨⟨?_, ?_, ?_, card_txTokens, ?_, ?_, ?_⟩, ?_, ⟨?_, ?_, ?_⟩, ?_⟩
  · rw [hring']
    exact (by decide : 2 * 1024 < txFreeRingEntries)
  · rw [hring']
    exact (by decide : txJumboFirst < txFreeRingEntries)
  · -- the parked tokens are with the chip, the others in the ring, the jumbo
    -- pairs on their stack
    have hpool := unparked_add_parked h.distinct (hids ▸ h.below : ∀ id ∈ _, id < txTokenIds b)
    have hjumbo : (txJumboReset : Multiset ℕ)
        = (Multiset.range txJumboPairs).map fun i => txJumboFirst + 2 * i := by
      rw [txJumboReset, Multiset.coe_reverse]
      rfl
    simp only [outside, h.core2, h.core3, Core2Pc.held, Core3Pc.held, Core2Pc.pushed, hstage,
      h.chip, h.jumbo, hjumbo, descTotal_eq_collect, hstored, add_zero]
    rw [txTokens, ← hids, ← hpool]
    abel
  · rw [hring']
    exact Multiset.zero_le _
  · rw [hring']
    trivial
  · rw [hring']
    trivial
  · rw [h.core2, h.core3]
    exact ⟨by simp [Core2Pc.allocating], by simp [Core3Pc.allocating],
      by simp [Core2Pc.freeing], by simp [Core3Pc.freeing]⟩
  · intro k hown
    exact absurd hown (h.empty k)
  · rw [h.core2]
    exact notEntry
  · rw [h.core3]
    trivial
  · intro t ht
    rw [h.jumbo] at ht
    simp only [txJumboReset, List.mem_reverse, List.mem_map] at ht
    obtain ⟨i, -, rfl⟩ := ht
    omega

theorem txInv_of_reachable (h : ((txSystem pkt).guarded NoEmptyFrame).Reachable s) :
    TxInv pkt s := by
  refine h.invariant (fun _ => txInv_init) fun s a s' hinv hstep => ?_
  obtain ⟨hlen, hstep⟩ := hstep
  cases a with
  | core2 a => exact txInv_core2 hinv hstep
  | core3 a => exact txInv_core3 hinv hlen hstep.1 hstep.2

/-! ## Custody -/

/-- The odd half of a jumbo pair, which never moves on its own. -/
def OddHalf (t : ℕ) : Prop := txJumboFirst ≤ t ∧ t < txFreeRingEntries ∧ t % 2 = 1

/-- Every token id is in exactly one place, once; the odd half of a
    jumbo pair is in none and its even half is in one; nothing else is
    anywhere. -/
structure TokenCustody (pkt : ℕ) (s : TxState) : Prop where
  once : ∀ t < txFreeRingEntries, ¬OddHalf t → HeldOnce (places pkt s) t
  oddHalf : ∀ t, OddHalf t → HeldOnce (places pkt s) (t - 1) ∧ ∀ p, t ∉ places pkt s p
  only : ∀ t, txFreeRingEntries ≤ t → ∀ p, t ∉ places pkt s p

theorem TxInv.sum_places_eq (h : TxInv pkt s) : ∑ p, places pkt s p = txTokens := by
  rw [sum_places]
  exact h.ring.conserved

theorem TxInv.custody (h : TxInv pkt s) : TokenCustody pkt s := by
  have hsum := h.sum_places_eq
  have hring : txFreeRingEntries = 13312 := rfl
  have hfirst : txJumboFirst = 13056 := rfl
  refine ⟨?_, ?_, ?_⟩
  · intro t ht hodd
    refine heldOnce_of_sum hsum nodup_txTokens (mem_txTokens.mpr ⟨ht, ?_⟩)
    unfold OddHalf at hodd
    omega
  · intro t hodd
    unfold OddHalf at hodd
    constructor
    · exact heldOnce_of_sum hsum nodup_txTokens (mem_txTokens.mpr (by omega))
    · exact not_mem_of_sum hsum fun hmem => by
        have := mem_txTokens.mp hmem
        omega
  · intro t ht
    exact not_mem_of_sum hsum fun hmem => by
      have := mem_txTokens.mp hmem
      omega

/-- In every run that stages no host frame of length zero, every tx token
    is in exactly one place at every moment. -/
theorem txToken_custody (pkt : ℕ) (s : TxState)
    (h : ((txSystem pkt).guarded NoEmptyFrame).Reachable s) : TokenCustody pkt s :=
  (txInv_of_reachable h).custody

/-! ## Following one host frame -/

section frame

/-- The state the reset leaves when the TDMA rx rings were filled with the
    first 2048 tokens. -/
def bootState (pkt : ℕ) : TxState :=
  let desc : DescKey → ℕ := fun k => tokAddr pkt (1024 * k.1 + k.2)
  { ring := npSkbTxForceReset ⟨.an7583, .mt7992⟩ (tdmaRxCollectBufids pkt desc) id
    jumbo := txJumboReset
    desc := desc
    tdmaRidx := fun _ => descFirst
    stage := fun _ => ⟨0, 0, 0, 0⟩
    stageWidx := fun _ => stageFirst
    stageRidx := fun _ => stageFirst
    chip := 0
    core2 := .idle
    core3 := .idle }

theorem collect_bootState (pkt : ℕ) :
    tdmaRxCollectBufids pkt (bootState pkt).desc = List.range (1024 + 1024) := by
  have hring : ∀ ring : Fin 2, ((List.finRange 1024).map fun i =>
      addrTok pkt ((bootState pkt).desc (ring, i)) % 2 ^ 16)
      = (List.range 1024).map fun i => 1024 * (ring : ℕ) + i := by
    intro ring
    rw [← List.map_coe_finRange_eq_range, List.map_map]
    refine List.map_congr_left fun i _ => ?_
    have htok : 1024 * (ring : ℕ) + i < 2 ^ 16 := by omega
    simp only [bootState, addrTok_tokAddr, Nat.mod_eq_of_lt htok, Function.comp]
  unfold tdmaRxCollectBufids
  simp only [hring]
  rw [List.range_add]
  simp [List.finRange_succ]

theorem resetStart_bootState (pkt : ℕ) : ResetStart pkt (bootState pkt) := by
  have hcollect := collect_bootState pkt
  refine ⟨⟨_, id, rfl, rfl, rfl⟩, ?_, ?_, rfl, fun k => by simp [bootState], rfl, rfl, rfl⟩
  · rw [hcollect]
    exact List.nodup_range
  · intro id hid
    rw [hcollect] at hid
    have hlt := List.mem_range.mp hid
    have hfirst : txJumboFirst = 13056 := rfl
    omega

/-- Actions of core 3 that belong to a frame under way. -/
def Core3Action.plain : Core3Action → Prop
  | .stageStart _ _ _ | .report _ => False
  | _ => True

/-- Core 3 doing one action after the other. -/
def runCore3 (pkt : ℕ) (s : TxState) : List Core3Action → Option TxState
  | [] => some s
  | a :: as => (core3Step pkt s a).bind fun s' => runCore3 pkt s' as

theorem reachable_runCore3 (guard : TxState → TxAction → Prop)
    (hguard : ∀ s a, Core3Action.plain a → guard s (.core3 a))
    (as : List Core3Action) (has : ∀ a ∈ as, a.plain)
    (h : ((txSystem pkt).guarded guard).Reachable s) (hrun : runCore3 pkt s as = some s') :
    ((txSystem pkt).guarded guard).Reachable s' := by
  induction as generalizing s with
  | nil =>
    obtain rfl := Option.some.inj hrun
    exact h
  | cons a as ih =>
    obtain ⟨s₁, hs₁, hrest⟩ := Option.bind_eq_some_iff.mp hrun
    have ha := has a (List.mem_cons_self ..)
    refine ih (fun b hb => has b (List.mem_cons_of_mem a hb)) (.step (.core3 a) h ?_) hrest
    refine ⟨hguard s a ha, ?_, hs₁⟩
    cases a <;> trivial

/-- Core 3 can stage a frame of any length up to one buffer right after
    the reset; the entry then has a token of the ring. -/
theorem reachable_staged (guard : TxState → TxAction → Prop)
    (hguard : ∀ s a, Core3Action.plain a → guard s (.core3 a))
    (h : ResetStart pkt s) (hidx : s.stageRidx 0 = s.stageWidx 0) (hdr : ℕ)
    (hstart : guard s (.core3 (.stageStart 0 hdr false))) (hlen : hostLen hdr ≤ eagleTxBufBytes) :
    ∃ s', ((txSystem pkt).guarded guard).Reachable s' ∧ s'.core2 = .idle ∧
      (s'.stage (0, s'.stageRidx 0)).own = 1 ∧
      (s'.stage (0, s'.stageRidx 0)).token ∈ txTokens ∧
      (s'.stage (0, s'.stageRidx 0)).len = hostLen hdr := by
  obtain ⟨slot, hring⟩ := h.ring_eq
  -- the first stored id is the token the frame gets
  have htok : slot 2048 ∈ txTokens := by
    have hstored : slot 2048 ∈ s.ring.stored txFreeRingEntries := by
      rw [hring, IdRing.stored, window]
      refine List.mem_map.mpr ⟨0, List.mem_range.mpr ?_, rfl⟩
      exact (by decide : 0 < used txFreeRingEntries (2 * 1024) txJumboFirst)
    rw [← (txInv_init h).ring.conserved]
    exact Multiset.mem_add.mpr (.inl hstored)
  have hlt : slot 2048 < 2 ^ 15 := by
    have := (mem_txTokens.mp htok).1
    have hentries : txFreeRingEntries = 13312 := rfl
    omega
  have hret : allocRet [slot 2048] = (slot 2048 : ℤ) := s16_of_lt hlt
  have hneg : (slot 2048 : ℤ) ≠ -1 := by omega
  let k : StageKey := (0, s.stageWidx 0)
  have h0 : ((txSystem pkt).guarded guard).Reachable
      { s with core3 := .stage k (hostLen hdr) } := by
    refine .step (.core3 (.stageStart 0 hdr false)) (.init h) ⟨hstart, trivial, ?_⟩
    simp [core3Step, stageStart, h.core3, h.empty, k]
  have h1 : ((txSystem pkt).guarded guard).Reachable
      { s with
        stage := Function.update s.stage k { s.stage k with len := hostLen hdr }
        ring := { s.ring with alloc := .one }
        core3 := .stageAlloc k (hostLen hdr) } := by
    refine .step (.core3 .stageLen) h0 ⟨hguard _ _ trivial, trivial, ?_⟩
    simp [core3Step, stageLen, hlen, hring]
  have h2 : ((txSystem pkt).guarded guard).Reachable
      { s with
        stage := Function.update s.stage k { s.stage k with len := hostLen hdr }
        ring := { s.ring with ridx := 2049 }
        core3 := .stageTok k (hostLen hdr) (slot 2048) } := by
    refine reachable_runCore3 guard hguard (List.replicate 6 .alloc) ?_ h1 ?_
    · intro a ha
      rw [List.eq_of_mem_replicate ha]
      trivial
    · rw [← hret, hring]
      rfl
  let e : StageEntry :=
    { buf := if hostLen hdr ≠ 0 then tokAddr pkt (u32 (slot 2048)) else (s.stage k).buf
      token := slot 2048
      len := hostLen hdr
      own := 1 }
  have h3 : ((txSystem pkt).guarded guard).Reachable
      { s with
        stage := Function.update s.stage k e
        stageWidx := Function.update s.stageWidx 0 (stageNext k.2)
        ring := { s.ring with ridx := 2049 }
        core3 := .idle } := by
    refine reachable_runCore3 guard hguard [.stageTok, .stageCopy, .stageOwn] ?_ h2 ?_
    · intro a ha
      simp only [List.mem_cons, List.not_mem_nil, or_false] at ha
      rcases ha with rfl | rfl | rfl <;> trivial
    · have hu16 : u16 (slot 2048) = slot 2048 := u16_natCast_of_lt (by omega)
      by_cases hzero : hostLen hdr = 0
      · simp [runCore3, core3Step, stageTok, stageCopy, stageOwn, hneg, hzero, hu16, e, k]
      · simp [runCore3, core3Step, stageTok, stageCopy, stageOwn, hneg, hzero, hu16, e, k]
  refine ⟨_, h3, h.core2, ?_⟩
  simp [hidx, k, e, htok]

/-- A frame of 100 bytes staged right after the reset: its token is in
    the staging entry and nowhere else. -/
theorem txToken_custody_staged :
    ∃ s, ((txSystem 0x84000000).guarded NoEmptyFrame).Reachable s ∧
      (s.stage (0, s.stageRidx 0)).len = 100 ∧ TokenCustody 0x84000000 s := by
  have hlen : hostLen (100 * 2 ^ 18) = 100 := by decide
  obtain ⟨s, hs, -, -, -, hstaged⟩ := reachable_staged
    NoEmptyFrame (fun s a ha => by cases a <;> trivial)
    (resetStart_bootState 0x84000000) rfl (100 * 2 ^ 18) (.inr (.inr (by decide))) (by decide)
  exact ⟨s, hs, hstaged.trans hlen, txToken_custody _ s hs⟩

/-- Clearing the entry of a frame of length zero takes its token out of
    the staging area and puts it nowhere. -/
theorem not_custody_of_skipped (hcore2 : s.core2 = .idle) {k : StageKey}
    (hown : (s.stage k).own = 1) (htok : (s.stage k).token ∈ txTokens)
    (h : TokenCustody pkt s) : ¬TokenCustody pkt { s with core2 := .pushClear k } := by
  intro h'
  have hmem := mem_txTokens.mp htok
  have hnot : ¬OddHalf (s.stage k).token := by
    unfold OddHalf
    omega
  have hheld : stageHeld s.stage none k = {(s.stage k).token} := if_pos ⟨hown, by simp⟩
  have hgone : stageHeld s.stage (some k) k = 0 := if_neg fun hc => hc.2 rfl
  have hstage := stageTotal_agree_off s.stage s.stage (some k) none k
    (fun i hi => by simp [stageHeld, Ne.symm hi])
  rw [hheld, hgone, add_zero] at hstage
  -- before, the staging area is the token's one place
  have hplace : places pkt s .staging = stageTotal s.stage none := by
    simp [places, hcore2, Core2Pc.pushed]
  have hin : (s.stage k).token ∈ places pkt s .staging := by
    rw [hplace, ← hstage]
    simp
  obtain ⟨hcount, hothers⟩ := (h.once _ hmem.1 hnot).at_of_mem hin
  rw [hplace, ← hstage, Multiset.count_add, Multiset.count_singleton_self] at hcount
  -- afterwards it has none
  obtain ⟨q, hcount', -⟩ := h'.once _ hmem.1 hnot
  have hq : (s.stage k).token ∈ places pkt { s with core2 := .pushClear k } q := by
    rw [← Multiset.count_pos, hcount']
    exact Nat.one_pos
  cases q with
  | staging =>
    have hpos := Multiset.count_pos.mpr hq
    have hsame : places pkt { s with core2 := .pushClear k } .staging
        = stageTotal s.stage (some k) := rfl
    rw [hsame] at hpos
    omega
  | core2 => simp [places, Core2Pc.held] at hq
  | freeRing => exact hothers .freeRing (by simp) hq
  | jumboStack => exact hothers .jumboStack (by simp) hq
  | tdmaDesc => exact hothers .tdmaDesc (by simp) hq
  | core3 => exact hothers .core3 (by simp) hq
  | chip => exact hothers .chip (by simp) hq

/-- Custody fails in some run: a host frame of length zero is staged, and
    core 2 clears its entry. -/
theorem txToken_lost : ¬∀ pkt s, (txSystem pkt).Reachable s → TokenCustody pkt s := by
  intro hall
  obtain ⟨s, hs, hcore2, hown, htok, hlen⟩ := reachable_staged
    (fun _ _ => True) (fun _ _ _ => trivial)
    (resetStart_bootState 0x84000000) rfl 0 trivial (by decide)
  have hlen : (s.stage (0, s.stageRidx 0)).len = 0 := hlen
  have hnext : (txSystem 0x84000000).Reachable
      { s with core2 := .pushClear (0, s.stageRidx 0) } := by
    refine .step (.core2 (.pushStart 0)) hs.of_guarded ?_
    simp [txSystem, core2Step, pushStart, hcore2, hown, hlen]
  exact not_custody_of_skipped hcore2 hown htok (hall _ s hs.of_guarded) (hall _ _ hnext)

end frame

end ClankerNPU.EagleTx
