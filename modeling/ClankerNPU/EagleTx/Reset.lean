import ClankerNPU.EagleTx.Model
import ClankerNPU.Lib.Custody
import Mathlib.Data.Fintype.BigOperators

/-! # The forced reset of the tx tokens

    `np_skb_tx_force_reset` reads the tokens parked in the TDMA rx
    descriptors, writes them to the front of the free ring, fills the
    ring up with every other id and starts reading behind the parked
    ones. With jumbo pairs it stops at `TX_JUMBO_FIRST` and refills the
    jumbo stack. -/

namespace ClankerNPU.EagleTx

open Circular Bufid

/-! ## The reset as the code computes it -/

/-- `tdma_rx_collect_bufids`. Its overflow test (`n > max`) never holds:
    the two rings have 2048 descriptors and `max` is 2048. -/
def tdmaRxCollectBufids (pkt : ℕ) (desc : DescKey → ℕ) : List ℕ :=
  (List.finRange 2).flatMap fun ring =>
    (List.finRange 1024).map fun i => addrTok pkt (desc (ring, i)) % 2 ^ 16

/-- `while (id < TX_FREE_RING_LAST && state[id] == TX_BUF_STATE_IN_RX) id++;`
    from `fuel` below the last index. -/
def skipInRx (rxIds : List ℕ) : ℕ → ℕ → ℕ
  | 0, id => id
  | fuel + 1, id =>
    if id < txFreeRingEntries - 1 ∧ id ∈ rxIds then skipInRx rxIds fuel (id + 1) else id

/-- The fill loop from slot `w` on, `fuel` slots being left. Returns the
    slots and the slot it stopped at. -/
def resetLoop (b : Build) (rxIds : List ℕ) : ℕ → ℕ → ℕ → (ℕ → ℕ) → (ℕ → ℕ) × ℕ
  | 0, w, _, ring => (ring, w)
  | fuel + 1, w, id, ring =>
    if w < rxIds.length ∧ rxIds.getD w 0xFFFF ≠ 0xFFFF then
      resetLoop b rxIds fuel (w + 1) id (Function.update ring w (rxIds.getD w 0xFFFF))
    else
      let id' := skipInRx rxIds (txFreeRingEntries - 1 - id) id
      if b.hasEagleTxJumbo ∧ id' ≥ txTokenIds b then (ring, w)
      else resetLoop b rxIds fuel (w + 1) (id' + 1) (Function.update ring w id')

/-- `np_skb_tx_force_reset`, on the ring: the tokens found in the
    descriptors and what the slots held before. -/
def npSkbTxForceReset (b : Build) (rxIds : List ℕ) (slot : ℕ → ℕ) : IdRing :=
  let filled := resetLoop b rxIds txFreeRingEntries 0 0 slot
  { slot := filled.1
    ridx := rxIds.length
    widx := if b.hasEagleTxJumbo then
        if filled.2 = txFreeRingEntries then 0 else filled.2
      else 0
    alloc := .idle
    free := .idle }

/-- `tx_jumbo_reset`: the even ids of the pairs, the last on top. -/
def txJumboReset : List ℕ := ((List.range txJumboPairs).map fun i => txJumboFirst + 2 * i).reverse

/-! ## What the loop writes -/

section loop

variable {b : Build} {rxIds : List ℕ}

/-- The ids from `id` on that are not parked. -/
def pending (n : ℕ) (rxIds : List ℕ) (id : ℕ) : List ℕ :=
  (List.range' id (n - id)).filter (· ∉ rxIds)

theorem pending_of_lt {n id : ℕ} (h : id < n) :
    pending n rxIds id
      = if id ∉ rxIds then id :: pending n rxIds (id + 1) else pending n rxIds (id + 1) := by
  unfold pending
  have hlen : n - id = n - (id + 1) + 1 := by omega
  rw [hlen, List.range'_succ, List.filter_cons]
  simp

theorem pending_of_ge {n id : ℕ} (h : n ≤ id) : pending n rxIds id = [] := by
  unfold pending
  rw [Nat.sub_eq_zero_of_le h]
  rfl

/-- The loop over parked ids stops at the first one to be written. -/
theorem skipInRx_eq {n x : ℕ} {rem : List ℕ} (hn : n ≤ txFreeRingEntries) (id : ℕ)
    (h : pending n rxIds id = x :: rem) :
    skipInRx rxIds (txFreeRingEntries - 1 - id) id = x ∧ id ≤ x ∧ x < n ∧
      pending n rxIds (x + 1) = rem := by
  induction hm : n - id generalizing id with
  | zero =>
    rw [pending_of_ge (by omega)] at h
    cases h
  | succ m ih =>
    rw [pending_of_lt (by omega)] at h
    by_cases hin : id ∈ rxIds
    · simp only [hin, not_true_eq_false, if_false] at h
      obtain ⟨hskip, hle, hlt, hrem⟩ := ih (id + 1) h (by omega)
      refine ⟨?_, by omega, hlt, hrem⟩
      have hfuel : txFreeRingEntries - 1 - id = txFreeRingEntries - 1 - (id + 1) + 1 := by omega
      rw [hfuel, skipInRx, if_pos ⟨by omega, hin⟩]
      exact hskip
    · simp only [hin, not_false_eq_true, if_true, List.cons.injEq] at h
      obtain ⟨rfl, hrem⟩ := h
      refine ⟨?_, le_rfl, by omega, hrem⟩
      cases txFreeRingEntries - 1 - id with
      | zero => rfl
      | succ fuel => rw [skipInRx, if_neg fun hc => hin hc.2]

/-- With nothing left to write below `n` the loop runs past `n`. -/
theorem le_skipInRx {n : ℕ} (hn : n < txFreeRingEntries) (id : ℕ)
    (h : pending n rxIds id = []) :
    n ≤ skipInRx rxIds (txFreeRingEntries - 1 - id) id := by
  -- on the distance to the end of the ring
  induction hm : txFreeRingEntries - 1 - id generalizing id with
  | zero =>
    rw [skipInRx]
    omega
  | succ m ih =>
    by_cases hlt : id < n
    · rw [pending_of_lt hlt] at h
      by_cases hin : id ∈ rxIds
      · simp only [hin, not_true_eq_false, if_false] at h
        rw [skipInRx, if_pos ⟨by omega, hin⟩]
        exact ih (id + 1) h (by omega)
      · simp [hin] at h
    · rw [skipInRx]
      split
      · -- behind `n` the loop only goes up
        have hge : ∀ fuel i, i ≤ skipInRx rxIds fuel i := by
          intro fuel
          induction fuel with
          | zero => exact fun i => le_rfl
          | succ fuel ih =>
            intro i
            rw [skipInRx]
            split
            · exact (Nat.le_succ i).trans (ih (i + 1))
            · exact le_rfl
        have := hge m (id + 1)
        omega
      · omega

/-- Slots written in order from `w` on. -/
def writeFrom (ring : ℕ → ℕ) (w : ℕ) : List ℕ → ℕ → ℕ
  | [] => ring
  | x :: xs => writeFrom (Function.update ring w x) (w + 1) xs

theorem writeFrom_of_lt {xs : List ℕ} {ring : ℕ → ℕ} {w i : ℕ} (h : i < w) :
    writeFrom ring w xs i = ring i := by
  induction xs generalizing ring w with
  | nil => rfl
  | cons x xs ih =>
    rw [writeFrom, ih (by omega), Function.update_of_ne (by omega)]

theorem writeFrom_append (ring : ℕ → ℕ) (w : ℕ) (xs ys : List ℕ) :
    writeFrom ring w (xs ++ ys) = writeFrom (writeFrom ring w xs) (w + xs.length) ys := by
  induction xs generalizing ring w with
  | nil => rfl
  | cons x xs ih =>
    rw [List.cons_append, writeFrom, ih, writeFrom, List.length_cons]
    congr 1
    omega

/-- Reading the written slots back gives the list. -/
theorem map_writeFrom (ring : ℕ → ℕ) (w : ℕ) (xs : List ℕ) :
    ((List.range xs.length).map fun j => writeFrom ring w xs (w + j)) = xs := by
  induction xs generalizing ring w with
  | nil => rfl
  | cons x xs ih =>
    rw [List.length_cons, List.range_succ_eq_map, List.map_cons, List.map_map]
    refine congrArg₂ List.cons ?_ ?_
    · rw [writeFrom, writeFrom_of_lt (by omega)]
      simp
    · have htail := ih (Function.update ring w x) (w + 1)
      conv_rhs => rw [← htail]
      refine List.map_congr_left fun j _ => ?_
      simp only [Function.comp, writeFrom]
      congr 1
      omega

/-- From the first slot behind the parked ids on, the loop writes the
    pending ids and stops after the last. -/
theorem resetLoop_pending (rem : List ℕ) (w id : ℕ) (ring : ℕ → ℕ)
    (hw : rxIds.length ≤ w) (hrem : pending (txTokenIds b) rxIds id = rem)
    (hlen : w + rem.length = txTokenIds b) :
    resetLoop b rxIds (txFreeRingEntries - w) w id ring
      = (writeFrom ring w rem, txTokenIds b) := by
  have hn : txTokenIds b ≤ txFreeRingEntries := ids_le_entries b .tx
  have hpast : ¬(w < rxIds.length ∧ rxIds.getD w 0xFFFF ≠ 0xFFFF) := fun h => by omega
  induction rem generalizing w id ring with
  | nil =>
    rw [List.length_nil, Nat.add_zero] at hlen
    cases hfuel : txFreeRingEntries - w with
    | zero => rw [resetLoop, writeFrom, hlen]
    | succ fuel =>
      -- slots are left over only in the jumbo build, whose ids end below
      have hjumbo : b.hasEagleTxJumbo = true := by
        by_contra hno
        have : txTokenIds b = txFreeRingEntries := if_neg hno
        omega
      have hge := le_skipInRx (by omega) id hrem
      rw [resetLoop, if_neg hpast, if_pos ⟨hjumbo, hge⟩, writeFrom, hlen]
  | cons x rem ih =>
    rw [List.length_cons] at hlen
    obtain ⟨hskip, -, hlt, hrest⟩ := skipInRx_eq hn id hrem
    have hfuel : txFreeRingEntries - w = txFreeRingEntries - (w + 1) + 1 := by omega
    rw [hfuel, resetLoop, if_neg hpast]
    simp only [hskip]
    rw [if_neg (by omega)]
    exact ih (w + 1) (x + 1) _ (by omega) hrest (by omega) (fun h => by omega)

/-- The loop first copies the parked ids. -/
theorem resetLoop_parked (w : ℕ) (ring : ℕ → ℕ) (hw : w ≤ rxIds.length)
    (hfit : rxIds.length ≤ txFreeRingEntries) (hids : ∀ id ∈ rxIds, id ≠ 0xFFFF) :
    resetLoop b rxIds (txFreeRingEntries - w) w 0 ring
      = resetLoop b rxIds (txFreeRingEntries - rxIds.length) rxIds.length 0
          (writeFrom ring w (rxIds.drop w)) := by
  induction hk : rxIds.length - w generalizing w ring with
  | zero =>
    have hweq : w = rxIds.length := by omega
    subst hweq
    rw [List.drop_length, writeFrom]
  | succ k ih =>
    have hlt : w < rxIds.length := by omega
    have hfuel : txFreeRingEntries - w = txFreeRingEntries - (w + 1) + 1 := by omega
    have hget : rxIds.getD w 0xFFFF = rxIds[w] := by simp [hlt]
    have hne : rxIds.getD w 0xFFFF ≠ 0xFFFF := hget ▸ hids _ (List.getElem_mem hlt)
    rw [hfuel, resetLoop, if_pos ⟨hlt, hne⟩, ih (w + 1) _ (by omega) (by omega),
      List.drop_eq_getElem_cons hlt, writeFrom, hget]

end loop

/-! ## The ring after the reset -/

section reset

variable {b : Build} {rxIds : List ℕ}

/-- The ids that are not parked, in order. -/
def unparked (b : Build) (rxIds : List ℕ) : List ℕ :=
  (List.range (txTokenIds b)).filter (· ∉ rxIds)

/-- Parked and unparked ids are all the ring's ids. -/
theorem unparked_add_parked (hnd : rxIds.Nodup) (hlt : ∀ id ∈ rxIds, id < txTokenIds b) :
    (unparked b rxIds : Multiset ℕ) + rxIds = Multiset.range (txTokenIds b) := by
  have hparked : (rxIds : Multiset ℕ) = (Multiset.range (txTokenIds b)).filter (· ∈ rxIds) := by
    refine (Multiset.Nodup.ext (Multiset.coe_nodup.mpr hnd)
      ((Multiset.nodup_range _).filter _)).mpr fun id => ?_
    rw [Multiset.mem_filter, Multiset.mem_range, Multiset.mem_coe]
    exact ⟨fun h => ⟨hlt id h, h⟩, fun h => h.2⟩
  have hfree : (unparked b rxIds : Multiset ℕ)
      = (Multiset.range (txTokenIds b)).filter (· ∉ rxIds) := by
    unfold unparked
    rw [← Multiset.filter_coe]
    rfl
  rw [hfree]
  conv_lhs => rw [hparked]
  rw [add_comm]
  exact Multiset.filter_add_not _ _

/-- The reset leaves the parked ids in front of the read index and the
    unparked ones stored. -/
theorem npSkbTxForceReset_eq (slot : ℕ → ℕ) (hnd : rxIds.Nodup)
    (hlt : ∀ id ∈ rxIds, id < txTokenIds b) :
    npSkbTxForceReset b rxIds slot =
      { slot := writeFrom slot 0 (rxIds ++ unparked b rxIds)
        ridx := rxIds.length
        widx := txTokenIds b % txFreeRingEntries
        alloc := .idle
        free := .idle } := by
  have hn : txTokenIds b ≤ txFreeRingEntries := ids_le_entries b .tx
  have hcard := congrArg Multiset.card (unparked_add_parked hnd hlt)
  simp only [Multiset.card_add, Multiset.coe_card, Multiset.card_range] at hcard
  have hids : ∀ id ∈ rxIds, id ≠ 0xFFFF := by
    intro id hid heq
    have := hlt id hid
    have : txFreeRingEntries = 13312 := rfl
    omega
  have hpending : pending (txTokenIds b) rxIds 0 = unparked b rxIds := by
    unfold pending unparked
    rw [Nat.sub_zero, List.range_eq_range']
  -- parked ids first, the others behind them
  have hloop : resetLoop b rxIds txFreeRingEntries 0 0 slot
      = (writeFrom slot 0 (rxIds ++ unparked b rxIds), txTokenIds b) := by
    have hparked := resetLoop_parked (b := b) 0 slot (Nat.zero_le _) (by omega) hids
    rw [Nat.sub_zero, List.drop_zero] at hparked
    rw [hparked, resetLoop_pending _ _ _ _ le_rfl hpending (by omega), writeFrom_append,
      Nat.zero_add]
  unfold npSkbTxForceReset
  simp only [hloop]
  congr 1
  unfold txTokenIds
  split <;> rfl

/-- The stored ids after the reset are the unparked ones. -/
theorem stored_npSkbTxForceReset (slot : ℕ → ℕ) (hnd : rxIds.Nodup)
    (hlt : ∀ id ∈ rxIds, id < txTokenIds b) (hroom : rxIds.length < txTokenIds b) :
    (npSkbTxForceReset b rxIds slot).stored txFreeRingEntries = unparked b rxIds := by
  have hn : txTokenIds b ≤ txFreeRingEntries := ids_le_entries b .tx
  have hcard := congrArg Multiset.card (unparked_add_parked hnd hlt)
  simp only [Multiset.card_add, Multiset.coe_card, Multiset.card_range] at hcard
  rw [npSkbTxForceReset_eq slot hnd hlt]
  have hused : used txFreeRingEntries rxIds.length (txTokenIds b % txFreeRingEntries)
      = (unparked b rxIds).length := by
    rw [← hcard, Nat.add_comm]
    exact used_add_mod (by omega) (by omega) (by omega)
  unfold IdRing.stored
  simp only [hused]
  rw [window_of_le _ (by omega), writeFrom_append, Nat.zero_add]
  exact map_writeFrom _ _ _

end reset

/-! ## The pool after the reset -/

section pool

variable {b : Build} {pkt : ℕ} {tok : DescKey → ℕ}

/-- The free ring and the jumbo stack. -/
structure TxPool where
  ring : IdRing
  /-- `tx_jumbo_stack[0..tx_jumbo_top)`, top first -/
  jumbo : List ℕ

/-- `np_skb_tx_force_reset`, from the buffers under the TDMA rx descriptors. -/
def TxPool.forceReset (b : Build) (pkt : ℕ) (desc : DescKey → ℕ) (p : TxPool) : TxPool where
  ring := npSkbTxForceReset b (tdmaRxCollectBufids pkt desc) p.ring.slot
  jumbo := if b.hasEagleTxJumbo then txJumboReset else p.jumbo

/-- The pool is whole: the stored slots have the ids no descriptor holds,
    those before the read index the ids of the descriptors, the stack the
    even ids of the jumbo pairs. -/
structure TxPool.Rebuilt (b : Build) (tok : DescKey → ℕ) (p : TxPool) : Prop where
  once : (p.ring.stored txFreeRingEntries).Nodup
  free : ∀ id, id ∈ p.ring.stored txFreeRingEntries ↔ id < txTokenIds b ∧ ∀ k, tok k ≠ id
  parkedOnce : ((List.range p.ring.ridx).map p.ring.slot).Nodup
  parked : ∀ id, id ∈ (List.range p.ring.ridx).map p.ring.slot ↔ ∃ k, tok k = id
  jumboOnce : b.hasEagleTxJumbo → p.jumbo.Nodup
  jumbo : b.hasEagleTxJumbo →
    ∀ id, id ∈ p.jumbo ↔ (txJumboFirst ≤ id ∧ id < txFreeRingEntries) ∧ id % 2 = 0

theorem length_tdmaRxCollectBufids (pkt : ℕ) (desc : DescKey → ℕ) :
    (tdmaRxCollectBufids pkt desc).length = 2 * 1024 := by
  simp [tdmaRxCollectBufids, List.length_flatMap]

/-- The collected ids are those of the descriptors, in order. -/
theorem tdmaRxCollectBufids_tokAddr (hlt : ∀ k, tok k < 2 ^ 16) :
    tdmaRxCollectBufids pkt (fun k => tokAddr pkt (tok k)) =
      (List.finRange 2 ×ˢ List.finRange 1024).map tok := by
  unfold tdmaRxCollectBufids
  simp only [addrTok_tokAddr, Nat.mod_eq_of_lt (hlt _)]
  rw [SProd.sprod, List.instSProd]
  simp only [List.product, List.map_flatMap, List.map_map]
  rfl

/-- The slots before the read index have the parked ids, in order. -/
theorem map_slot_npSkbTxForceReset {rxIds : List ℕ} (slot : ℕ → ℕ) (hnd : rxIds.Nodup)
    (hlt : ∀ id ∈ rxIds, id < txTokenIds b) :
    (List.range (npSkbTxForceReset b rxIds slot).ridx).map (npSkbTxForceReset b rxIds slot).slot =
      rxIds := by
  rw [npSkbTxForceReset_eq slot hnd hlt]
  dsimp only
  have hread := map_writeFrom slot 0 rxIds
  conv_rhs => rw [← hread]
  refine List.map_congr_left fun i hi => ?_
  rw [writeFrom_append, writeFrom_of_lt (by rw [Nat.zero_add]; exact List.mem_range.mp hi),
    Nat.zero_add]

theorem nodup_txJumboReset : txJumboReset.Nodup := by
  unfold txJumboReset
  refine List.nodup_reverse.mpr (List.Nodup.map (fun i j hij => ?_) List.nodup_range)
  have : txJumboFirst + 2 * i = txJumboFirst + 2 * j := hij
  omega

theorem mem_txJumboReset (id : ℕ) :
    id ∈ txJumboReset ↔ (txJumboFirst ≤ id ∧ id < txFreeRingEntries) ∧ id % 2 = 0 := by
  unfold txJumboReset txJumboFirst txFreeRingEntries txJumboPairs
  rw [List.mem_reverse, List.mem_map]
  constructor
  · rintro ⟨i, hi, rfl⟩
    have := List.mem_range.mp hi
    omega
  · rintro ⟨⟨hle, hlt⟩, heven⟩
    exact ⟨(id - 13056) / 2, List.mem_range.mpr (by omega), by omega⟩

/-- The forced reset rebuilds the pool, whatever it was before and whatever
    tokens the descriptors hold. -/
theorem forceReset_rebuilt (b : Build) (pkt : ℕ) (tok : DescKey → ℕ) (p : TxPool)
    (hinj : Function.Injective tok) (hlt : ∀ k, tok k < txTokenIds b) :
    (p.forceReset b pkt fun k => tokAddr pkt (tok k)).Rebuilt b tok := by
  have hn : txTokenIds b ≤ txFreeRingEntries := ids_le_entries b .tx
  have hentries : txFreeRingEntries = 13312 := rfl
  have hrx : tdmaRxCollectBufids pkt (fun k => tokAddr pkt (tok k)) = _ :=
    tdmaRxCollectBufids_tokAddr (fun k => (hlt k).trans_le (by omega))
  -- the collected ids are the tokens of the descriptors, each once
  have hmem : ∀ id, id ∈ (List.finRange 2 ×ˢ List.finRange 1024).map tok ↔ ∃ k, tok k = id := by
    intro id
    simp [List.mem_map, List.mem_product]
  have hnd : ((List.finRange 2 ×ˢ List.finRange 1024).map tok).Nodup :=
    ((List.nodup_finRange 2).product (List.nodup_finRange 1024)).map hinj
  have hlen := length_tdmaRxCollectBufids pkt fun k => tokAddr pkt (tok k)
  rw [hrx] at hlen
  have hbelow : ∀ id ∈ (List.finRange 2 ×ˢ List.finRange 1024).map tok, id < txTokenIds b := by
    intro id hid
    obtain ⟨k, rfl⟩ := (hmem id).mp hid
    exact hlt k
  have hroom : 2 * 1024 < txTokenIds b := by
    unfold txTokenIds txJumboFirst txJumboPairs txFreeRingEntries
    split_ifs <;> decide
  have hstored := stored_npSkbTxForceReset (b := b) p.ring.slot hnd hbelow (by omega)
  have hparked := map_slot_npSkbTxForceReset (b := b) p.ring.slot hnd hbelow
  unfold TxPool.forceReset
  rw [hrx]
  refine ⟨?_, ?_, ?_, ?_, fun hj => ?_, fun hj => ?_⟩
  · rw [hstored]
    exact List.nodup_range.filter _
  · intro id
    rw [hstored]
    unfold unparked
    rw [List.mem_filter, List.mem_range, decide_eq_true_iff, hmem, not_exists]
  · rw [hparked]
    exact hnd
  · rw [hparked]
    exact hmem
  · rw [if_pos hj]
    exact nodup_txJumboReset
  · rw [if_pos hj]
    exact mem_txJumboReset

end pool

/-- Descriptor `i` of ring `r` with token `1024 * r + i`, in a build with
    jumbo pairs and over a ring of one id. -/
theorem forceReset_rebuilt_first :
    (TxPool.forceReset ⟨.an7583, .mt7993⟩ 0x90000000
        (fun k => tokAddr 0x90000000 (1024 * k.1 + k.2))
        ⟨⟨fun _ => 7, 5, 3, .idle, .idle⟩, []⟩).Rebuilt
      ⟨.an7583, .mt7993⟩ (fun k => 1024 * k.1 + k.2) := by
  refine forceReset_rebuilt ⟨.an7583, .mt7993⟩ 0x90000000 (fun k => 1024 * k.1 + k.2) _ ?_ ?_
  · rintro ⟨r, i⟩ ⟨r', i'⟩ heq
    have h : 1024 * r.val + i.val = 1024 * r'.val + i'.val := heq
    have hi := i.isLt
    have hi' := i'.isLt
    exact Prod.ext (Fin.ext (by dsimp only; omega)) (Fin.ext (by dsimp only; omega))
  · rintro ⟨r, i⟩
    have hr := r.isLt
    have hi := i.isLt
    show 1024 * r.val + i.val < 13312 - 2 * 128
    omega

end ClankerNPU.EagleTx
