import ClankerNPU.EagleTx.Padded
import Mathlib.Order.Interval.Set.Basic

/-! # The bytes of the tx packet buffer

    A token covers 2 KB of the packet buffer, a jumbo token the 4 KB of
    two adjacent ones. `eagle_tx_stage` cuts a host frame to what its
    token covers and copies it there. In every run from the forced reset
    the ranges of two tokens in use have no byte in common, and the copy
    of a host frame stays in the range of its token. -/

open scoped BigOperators

namespace ClankerNPU.EagleTx

open Circular Bufid Custody

variable {pkt : ℕ} {s s' : TxState}

/-! ## Ranges -/

/-- The tx packet buffer as the host hands it over: one piece inside the
    addresses that 30 bits and bit 31 reach. -/
structure PktBuf where
  /-- `npu_tx_pkt_buf_addr` -/
  addr : ℕ
  fits : addr % 2 ^ 30 + txFreeRingEntries * eagleTxBufBytes ≤ 2 ^ 30

/-- The bytes of the packet buffer. -/
def pktRange (pkt : ℕ) : Set ℕ :=
  Set.Ico (tokAddr pkt 0) (tokAddr pkt 0 + txFreeRingEntries * eagleTxBufBytes)

/-- How many bytes belong to a token. -/
def tokBytes (t : ℕ) : ℕ := if t ≥ txJumboFirst then 2 * eagleTxBufBytes else eagleTxBufBytes

/-- The bytes of a token. -/
def tokRange (pkt t : ℕ) : Set ℕ := Set.Ico (tokAddr pkt t) (tokAddr pkt t + tokBytes t)

/-- The bytes `bridge_dma_copy(0, in[1], buf, len)` writes. -/
def copyRange (pkt len : ℕ) (token : ℤ) : Set ℕ :=
  Set.Ico (tokAddr pkt (u32 token)) (tokAddr pkt (u32 token) + len)

theorem PktBuf.tokAddr_eq (b : PktBuf) {t : ℕ} (ht : t < txFreeRingEntries) :
    tokAddr b.addr t = b.addr % 2 ^ 30 + 2 ^ 31 + t * 2 ^ 11 := by
  have hfits := b.fits
  have hring : txFreeRingEntries = 13312 := rfl
  have hbytes : eagleTxBufBytes = 2048 := rfl
  rw [hring, hbytes] at hfits
  rw [hring] at ht
  unfold tokAddr
  omega

/-- Two tokens have no byte in common. -/
theorem PktBuf.not_mem_tokRange (b : PktBuf) {t u a : ℕ} (ht : t ∈ txTokens) (hu : u ∈ txTokens)
    (hne : t ≠ u) (ha : a ∈ tokRange b.addr t) : a ∉ tokRange b.addr u := by
  obtain ⟨hlt, hjumbo⟩ := mem_txTokens.mp ht
  obtain ⟨hlt', hjumbo'⟩ := mem_txTokens.mp hu
  have hfirst : txJumboFirst = 13056 := rfl
  have hbytes : eagleTxBufBytes = 2048 := rfl
  intro ha'
  simp only [tokRange, tokBytes, Set.mem_Ico, b.tokAddr_eq hlt, b.tokAddr_eq hlt'] at ha ha'
  -- a jumbo token is even, so the next one is two buffers away
  by_cases h : t ≥ txJumboFirst
  · rw [if_pos h] at ha
    by_cases h' : u ≥ txJumboFirst
    · rw [if_pos h'] at ha'
      omega
    · rw [if_neg h'] at ha'
      omega
  · rw [if_neg h] at ha
    by_cases h' : u ≥ txJumboFirst
    · rw [if_pos h'] at ha'
      omega
    · rw [if_neg h'] at ha'
      omega

/-- A token's bytes are in the packet buffer. -/
theorem PktBuf.tokRange_subset (b : PktBuf) {t : ℕ} (ht : t ∈ txTokens) :
    tokRange b.addr t ⊆ pktRange b.addr := by
  obtain ⟨hlt, hjumbo⟩ := mem_txTokens.mp ht
  have hfirst : txJumboFirst = 13056 := rfl
  have hring : txFreeRingEntries = 13312 := rfl
  have hbytes : eagleTxBufBytes = 2048 := rfl
  have hend : t * 2 ^ 11 + tokBytes t ≤ txFreeRingEntries * eagleTxBufBytes := by
    rw [hring] at hlt ⊢
    unfold tokBytes
    rw [hbytes]
    split <;> omega
  have hbase := b.tokAddr_eq (hlt.trans_le' (Nat.zero_le t))
  rw [Nat.zero_mul, Nat.add_zero] at hbase
  have haddr := b.tokAddr_eq hlt
  refine Set.Ico_subset_Ico ?_ ?_
  · rw [hbase, haddr]
    exact Nat.le_add_right _ _
  · rw [hbase, haddr, Nat.add_assoc]
    exact Nat.add_le_add_left hend _

/-! ## Copies -/

/-- Core 3's frame fits the token it has for it. -/
def RoomOk : Core3Pc → Prop
  | .stageAlloc _ len => len ≤ eagleTxBufBytes
  | .stageTok _ len token =>
    token ≠ -1 → ∃ t : ℕ, token = t ∧ t < txFreeRingEntries ∧ len ≤ tokBytes t
  | .stageCopy _ len token => ∃ t : ℕ, token = t ∧ t < txFreeRingEntries ∧ len ≤ tokBytes t
  | _ => True

theorem eagleTxBufBytes_le (t : ℕ) : eagleTxBufBytes ≤ tokBytes t := by
  unfold tokBytes
  split
  · exact Nat.le_mul_of_pos_left _ (by decide)
  · exact le_rfl

/-- Whatever a place holds is a token. -/
theorem Padded.mem_txTokens (h : Padded pkt s) {t : ℕ} {p : Place} (ht : t ∈ places pkt s p) :
    t ∈ txTokens := by
  obtain ⟨stage, lost, h⟩ := h
  refine Multiset.mem_of_le h.sum_places_le ?_
  exact Multiset.mem_sum.mpr ⟨p, Finset.mem_univ p, ht⟩

theorem s16_bounds (x : ℕ) : -2 ^ 15 ≤ s16 x ∧ s16 x < 2 ^ 15 := by
  unfold s16
  split <;> omega

/-- The token core 3 tests is -1 or a token id. -/
theorem Padded.token_eq (h : Padded pkt s) {k : StageKey} {len : ℕ} {token : ℤ}
    (hpc : s.core3 = .stageTok k len token) (hne : token ≠ -1) (hlow : -2 ^ 15 ≤ token)
    (hhigh : token < 2 ^ 15) : ∃ t : ℕ, token = t ∧ t < txFreeRingEntries := by
  have hheld : u16 token ∈ places pkt s .core3 := by
    simp only [places, hpc, Core3Pc.held, tokHeld, if_neg hne, Multiset.mem_singleton]
  have hlt := (EagleTx.mem_txTokens.mp (h.mem_txTokens hheld)).1
  have hring : txFreeRingEntries = 13312 := rfl
  rw [hring] at hlt
  refine ⟨u16 token, ?_, by rw [hring]; exact hlt⟩
  unfold u16 at hlt ⊢
  omega

/-- Every step of core 3 cuts the frame to the token it takes. -/
theorem roomOk_core3 {a : Core3Action} (h : Padded pkt s) (hroom : RoomOk s.core3)
    (hnext : Padded pkt s') (hstep : core3Step pkt s a = some s') : RoomOk s'.core3 := by
  cases a with
  | stageLen =>
    cases hpc : s.core3 with
    | stage k len =>
      simp only [core3Step, stageLen, hpc] at hstep
      split at hstep
      · cases hjumbo : s.jumbo with
        | nil =>
          simp only [hjumbo] at hstep
          obtain rfl := Option.some.inj hstep
          intro hne
          exact absurd rfl hne
        | cons token rest =>
          simp only [hjumbo] at hstep
          obtain rfl := Option.some.inj hstep
          -- the stack holds jumbo tokens, which have two buffers
          obtain ⟨stage, lost, hpad⟩ := h
          have hge : token ≥ txJumboFirst := hpad.inv.jumboIds token (by
            simp [TxState.padded, hjumbo])
          have hmem : token ∈ places pkt s .jumboStack := by
            simp [places, hjumbo]
          have hlt := (mem_txTokens.mp (Padded.mem_txTokens ⟨stage, lost, hpad⟩ hmem)).1
          intro _
          refine ⟨token, rfl, hlt, ?_⟩
          rw [tokBytes, if_pos hge]
          exact Nat.min_le_right _ _
      · next hle =>
        split at hstep
        · obtain rfl := Option.some.inj hstep
          exact Nat.not_lt.mp hle
        · cases hstep
    | _ => simp [core3Step, stageLen, hpc] at hstep
  | alloc =>
    cases hpc : s.core3 with
    | stageAlloc k len =>
      rw [hpc] at hroom
      simp only [core3Step, stageAlloc, hpc] at hstep
      split at hstep
      · obtain rfl := Option.some.inj hstep
        exact hroom
      · next ids _ =>
        obtain rfl := Option.some.inj hstep
        intro hne
        have hrange : -2 ^ 15 ≤ allocRet ids ∧ allocRet ids < 2 ^ 15 := by
          cases ids with
          | nil => exact ⟨by decide, by decide⟩
          | cons id rest => exact s16_bounds id
        obtain ⟨t, htok, hlt⟩ := hnext.token_eq rfl hne hrange.1 hrange.2
        exact ⟨t, htok, hlt, hroom.trans (eagleTxBufBytes_le t)⟩
    | _ => simp [core3Step, stageAlloc, hpc] at hstep
  | stageTok =>
    cases hpc : s.core3 with
    | stageTok k len token =>
      rw [hpc] at hroom
      simp only [core3Step, stageTok, hpc] at hstep
      split at hstep
      · obtain rfl := Option.some.inj hstep
        trivial
      · next hne =>
        obtain rfl := Option.some.inj hstep
        exact hroom hne
    | _ => simp [core3Step, stageTok, hpc] at hstep
  | stageStart band hdr drop =>
    cases hpc : s.core3 with
    | idle =>
      simp only [core3Step, stageStart, hpc] at hstep
      grind [RoomOk]
    | _ => simp [core3Step, stageStart, hpc] at hstep
  | stageCopy =>
    cases hpc : s.core3 with
    | stageCopy k len token =>
      simp only [core3Step, stageCopy, hpc] at hstep
      grind [RoomOk]
    | _ => simp [core3Step, stageCopy, hpc] at hstep
  | stageOwn =>
    cases hpc : s.core3 with
    | stageOwn k token =>
      simp only [core3Step, stageOwn, hpc] at hstep
      grind [RoomOk]
    | _ => simp [core3Step, stageOwn, hpc] at hstep
  | report r =>
    cases hpc : s.core3 with
    | done rest toks =>
      simp only [core3Step, pollReport, hpc] at hstep
      grind [RoomOk]
    | _ => simp [core3Step, pollReport, hpc] at hstep
  | pollStart | put | free | pollEnd =>
    obtain ⟨-, -, -, -, hwritten⟩ := @poll_padded _ _ _ s.stage 0 _ rfl hstep
    cases hpc : s'.core3 <;> first | trivial | simp [hpc, Core3Pc.written] at hwritten

/-- Core 2 leaves core 3 where it stands. -/
theorem core2_core3 {a : Core2Action} (hstep : core2Step pkt s a = some s') :
    s'.core3 = s.core3 := by
  cases a with
  | pushStart band =>
    simp only [core2Step, pushStart] at hstep
    grind
  | give mac =>
    simp only [core2Step, pushGive] at hstep
    grind
  | clear =>
    simp only [core2Step, pushClear] at hstep
    grind
  | clearOwn =>
    simp only [core2Step, pushOwn] at hstep
    grind
  | _ => exact (@tdma_padded _ _ _ s.stage 0 _ rfl hstep).2.2.1

/-! ## Every run -/

/-- A frame or a descriptor has the token. -/
def InUse (pkt : ℕ) (s : TxState) (t : ℕ) : Prop :=
  ∃ p, p ≠ .freeRing ∧ p ≠ .jumboStack ∧ t ∈ places pkt s p

/-- No two frames share bytes of the packet buffer. -/
structure BuffersApart (pkt : ℕ) (s : TxState) : Prop where
  /-- no token is held twice, be it in one place or in two -/
  once : ∀ t, (∑ p, places pkt s p).count t ≤ 1
  apart : ∀ t u, InUse pkt s t → InUse pkt s u → t ≠ u →
    ∀ a ∈ tokRange pkt t, a ∉ tokRange pkt u
  inside : ∀ t, InUse pkt s t → tokRange pkt t ⊆ pktRange pkt
  /-- the copy of a host frame stays in the range of the token its entry
      names -/
  copies : ∀ k len token, s.core3 = .stageCopy k len token →
    InUse pkt s (s.stage k).token ∧ copyRange pkt len token ⊆ tokRange pkt (s.stage k).token

theorem roomOk_of_reachable (h : (stagingSystem pkt).Reachable s) : RoomOk s.core3 := by
  induction h with
  | init hinit =>
    rw [hinit.core3]
    trivial
  | step a hreach hstep ih =>
    have hnext := padded_of_reachable (hreach.step a hstep)
    cases a with
    | core2 a =>
      rw [core2_core3 hstep]
      exact ih
    | core3 a => exact roomOk_core3 (padded_of_reachable hreach) ih hnext hstep.2

/-- In every run from the forced reset, with frames of any length, the
    frames under way share no bytes of the packet buffer. -/
theorem txBuffers_apart (b : PktBuf) (s : TxState) (h : (stagingSystem b.addr).Reachable s) :
    BuffersApart b.addr s := by
  have hpad := padded_of_reachable h
  have hroom := roomOk_of_reachable h
  have hmem : ∀ t, InUse b.addr s t → t ∈ txTokens := by
    rintro t ⟨p, -, -, ht⟩
    exact hpad.mem_txTokens ht
  refine ⟨?_, ?_, ?_, ?_⟩
  · intro t
    obtain ⟨stage, lost, hby⟩ := hpad
    exact (Multiset.count_le_of_le t hby.sum_places_le).trans
      (Multiset.nodup_iff_count_le_one.mp nodup_txTokens t)
  · intro t u ht hu hne a ha
    exact b.not_mem_tokRange (hmem t ht) (hmem u hu) hne ha
  · intro t ht
    exact b.tokRange_subset (hmem t ht)
  · intro k len token hpc
    rw [hpc] at hroom
    obtain ⟨t, rfl, hlt, hlen⟩ := hroom
    have hring : txFreeRingEntries = 13312 := rfl
    have hrec : (s.stage k).token = t := by
      obtain ⟨stage, lost, hby⟩ := hpad
      have hok := hby.inv.staging.core3Ok
      simp only [TxState.padded, hpc, Core3Pc.padded, Core3Ok] at hok
      rw [← (hby.pads k).token, hok.2.2.2.2]
      exact u16_natCast_of_lt (by omega)
    have hword : u32 t = t := by
      unfold u32
      omega
    rw [hrec]
    constructor
    · refine ⟨.core3, by decide, by decide, ?_⟩
      simp only [places, hpc, Core3Pc.held, tokHeld_of_lt hlt, Multiset.mem_singleton]
    · rw [copyRange, hword, tokRange]
      exact Set.Ico_subset_Ico_right (Nat.add_le_add_left hlen _)

/-- Right after the reset a frame of 3000 bytes takes the jumbo token on
    top of the stack. -/
theorem reachable_jumbo (h : ResetStart pkt s) :
    ∃ s', (stagingSystem pkt).Reachable s' ∧
      s'.core3 = .stageCopy (0, s.stageWidx 0) 3000 (13310 : ℕ) := by
  let k : StageKey := (0, s.stageWidx 0)
  have hlen : hostLen (3000 * 2 ^ 18) = 3000 := by decide
  have hstack : txJumboReset = 13310 :: txJumboReset.tail := by decide +kernel
  have h0 : (stagingSystem pkt).Reachable { s with core3 := .stage k 3000 } := by
    refine .step (.core3 (.stageStart 0 (3000 * 2 ^ 18) false)) (.init h) ⟨trivial, ?_⟩
    simp only [core3Step, stageStart, h.core3, if_neg (h.empty _), hlen]
    rfl
  have h1 : (stagingSystem pkt).Reachable { s with
      stage := Function.update s.stage k { s.stage k with len := 3000 }
      jumbo := txJumboReset.tail
      core3 := .stageTok k 3000 (13310 : ℕ) } := by
    refine .step (.core3 .stageLen) h0 ⟨trivial, ?_⟩
    simp only [core3Step, stageLen, h.jumbo]
    rw [hstack]
    rfl
  exact ⟨_, .step (.core3 .stageTok) h1 ⟨trivial, rfl⟩, rfl⟩

/-- The copy of that frame stays in the 4 KB of its token. -/
theorem txBuffers_apart_jumbo :
    ∃ s, (stagingSystem 0x84000000).Reachable s ∧
      s.core3 = .stageCopy (0, stageFirst) 3000 (13310 : ℕ) ∧ BuffersApart 0x84000000 s := by
  obtain ⟨s, hs, hcopy⟩ := reachable_jumbo (resetStart_bootState 0x84000000)
  exact ⟨s, hs, hcopy, txBuffers_apart ⟨0x84000000, by decide⟩ s hs⟩

end ClankerNPU.EagleTx
