import ClankerNPU.EagleRx.Model
import ClankerNPU.Lib.FlagRing
import ClankerNPU.Lib.StepSystem
import Mathlib.Data.Nat.Bitwise

/-! # The packet queue, store by store

    `eagle_txq` is a ring of 512 entries of three words. The harts that
    enqueue take turns under mutex 10; the drain takes no lock. Bit 0 of
    the flags byte, inside word 2, says who owns the entry. Both sides
    are modelled at the granularity of single loads and stores, the
    drain in its batch version and its single version. -/

namespace ClankerNPU.EagleRx

/-! ## Entries -/

/-- One entry: word 0 is the buffer id, word 1 the wcid and the segment
    length, word 2 the packet length, the flags and the info byte. -/
structure QEntry where
  bufId : ℕ
  wcid : ℕ
  segLen : ℕ
  pktLen : ℕ
  flags : ℕ
  info : ℕ
  deriving DecidableEq

/-- A load of the word at offset 4. -/
def QEntry.word1 (e : QEntry) : ℕ := e.wcid + e.segLen * 2 ^ 16

/-- A load of the word at offset 8. -/
def QEntry.word2 (e : QEntry) : ℕ := e.pktLen + e.flags * 2 ^ 16 + e.info * 2 ^ 24

/-- The flag of the entry: `flags & 1`. -/
def QEntry.busy (e : QEntry) : Bool := e.flags &&& 1 ≠ 0

/-- What a hart enqueues, in the widths of the arguments. -/
structure RxPacket where
  bufId : ℕ
  segLen : ℕ
  wcid : ℕ
  info : ℕ
  flags : ℕ
  pktLen : ℕ
  bufId_lt : bufId < 2 ^ 32
  segLen_lt : segLen < 2 ^ 16
  wcid_lt : wcid < 2 ^ 16
  info_lt : info < 2 ^ 8
  flags_lt : flags < 2 ^ 8
  pktLen_lt : pktLen < 2 ^ 16

/-- The entry a packet is stored as. -/
def RxPacket.entry (p : RxPacket) : QEntry where
  bufId := p.bufId
  wcid := p.wcid
  segLen := p.segLen
  pktLen := p.pktLen
  flags := p.flags ||| 1
  info := p.info

/-- The packet `eagle_txq1_put` stores. -/
def txq1Packet (bufId len : ℕ) (hid : bufId < 2 ^ 32) (hlen : len < 2 ^ 16) : RxPacket where
  bufId := bufId
  segLen := len
  wcid := 0
  info := 0
  flags := 2
  pktLen := len
  bufId_lt := hid
  segLen_lt := hlen
  wcid_lt := by decide
  info_lt := by decide
  flags_lt := by decide
  pktLen_lt := hlen

/-- What the drain hands to `host_ring_submit` besides the buffer. -/
structure HandArgs where
  wcid : ℕ
  amsdu : ℕ
  /-- `flags >> 2` -/
  kind : ℕ
  orig : ℕ
  /-- `(flags >> 1) & 1` -/
  bit1 : ℕ
  deriving DecidableEq

/-- What the drain took from one entry; an entry with a negative id or
    no length is dropped without a submit. -/
structure Taken where
  bufId : ℕ
  segLen : ℕ
  args : Option HandArgs
  deriving DecidableEq

/-- `(s32)buf_id >= 0 && seg_len != 0` -/
def submits (bufId segLen : ℕ) : Bool := bufId < 2 ^ 31 && segLen ≠ 0

/-- What the drain makes of the values it has loaded. -/
def takenOf (bufId segLen wcid info flags pktLen : ℕ) : Taken where
  bufId := bufId
  segLen := segLen
  args := if submits bufId segLen then
      some ⟨wcid, info, flags >>> 2, pktLen, (flags >>> 1) &&& 1⟩
    else none

/-- What a packet is to arrive as. -/
def RxPacket.taken (p : RxPacket) : Taken :=
  takenOf p.bufId p.segLen p.wcid p.info p.flags p.pktLen

/-! ## Words and fields -/

theorem or_one_mod_two (n : ℕ) : (n ||| 1) % 2 = 1 := by
  rw [Nat.or_mod_two_eq_one]
  right
  rfl

theorem or_one_shiftRight (n k : ℕ) : (n ||| 1) >>> (k + 1) = n >>> (k + 1) := by
  rw [Nat.shiftRight_or_distrib]
  have hone : 1 >>> (k + 1) = 0 := by
    rw [Nat.add_comm, Nat.shiftRight_add]
    exact Nat.zero_shiftRight k
  rw [hone, Nat.or_zero]

theorem RxPacket.entry_busy (p : RxPacket) : p.entry.busy = true := by
  have hodd := or_one_mod_two p.flags
  unfold QEntry.busy
  rw [Nat.and_one_is_mod]
  show decide ((p.flags ||| 1) % 2 ≠ 0) = true
  rw [hodd]
  rfl

theorem RxPacket.entry_flags_lt (p : RxPacket) : p.entry.flags < 2 ^ 8 :=
  Nat.or_lt_two_pow p.flags_lt (by decide)

/-- The batch drain's test of bit 16 of word 2 is the test of the flag. -/
theorem word2_and (e : QEntry) (hpkt : e.pktLen < 2 ^ 16) :
    e.word2 &&& 0x10000 = 0 ↔ e.busy = false := by
  have hpow : 0x10000 = 2 ^ 16 := rfl
  have hbit : e.word2 / 2 ^ 16 % 2 = e.flags % 2 := by
    unfold QEntry.word2
    omega
  unfold QEntry.busy
  rw [hpow, Nat.and_two_pow, Nat.testBit_eq_decide_div_mod_eq, hbit, Nat.and_one_is_mod]
  rcases Nat.mod_two_eq_zero_or_one e.flags with h | h
  · rw [h]
    decide
  · rw [h]
    decide

/-- The batch drain's locals are the fields. -/
theorem takenOf_words (p : RxPacket) :
    takenOf p.entry.bufId (p.entry.word1 / 2 ^ 16 % 2 ^ 16) (p.entry.word1 % 2 ^ 16)
      (p.entry.word2 / 2 ^ 24 % 2 ^ 8) (p.entry.word2 / 2 ^ 16 % 2 ^ 8)
      (p.entry.word2 % 2 ^ 16) = p.taken := by
  have hf := p.entry_flags_lt
  have hs : p.entry.segLen < 2 ^ 16 := p.segLen_lt
  have hw : p.entry.wcid < 2 ^ 16 := p.wcid_lt
  have hi : p.entry.info < 2 ^ 8 := p.info_lt
  have hp : p.entry.pktLen < 2 ^ 16 := p.pktLen_lt
  have h1 : p.entry.word1 / 2 ^ 16 % 2 ^ 16 = p.entry.segLen := by
    unfold QEntry.word1
    omega
  have h2 : p.entry.word1 % 2 ^ 16 = p.entry.wcid := by
    unfold QEntry.word1
    omega
  have h3 : p.entry.word2 / 2 ^ 24 % 2 ^ 8 = p.entry.info := by
    unfold QEntry.word2
    omega
  have h4 : p.entry.word2 / 2 ^ 16 % 2 ^ 8 = p.entry.flags := by
    unfold QEntry.word2
    omega
  have h5 : p.entry.word2 % 2 ^ 16 = p.entry.pktLen := by
    unfold QEntry.word2
    omega
  rw [h1, h2, h3, h4, h5]
  unfold takenOf RxPacket.taken takenOf
  simp only [RxPacket.entry, or_one_shiftRight p.flags 0, or_one_shiftRight p.flags 1]

/-- The single drain's locals are the fields. -/
theorem takenOf_entry (p : RxPacket) :
    takenOf p.entry.bufId p.entry.segLen p.entry.wcid p.entry.info p.entry.flags p.entry.pktLen =
      p.taken := by
  unfold RxPacket.taken takenOf
  simp only [RxPacket.entry, or_one_shiftRight p.flags 0, or_one_shiftRight p.flags 1]

/-! ## The two sides -/

/-- Where the hart that holds mutex 10 stands in `eagle_pkt_enqueue` or
    `eagle_txq1_put`; each phase but the first is a store. -/
inductive PutPhase where
  /-- load the flags byte at the write index -/
  | test
  | bufId
  | wcid
  | segLen
  | pktLen
  | info
  | flags
  | widx
  deriving DecidableEq

/-- The next access of a drain call. -/
inductive DrainPhase where
  /-- batch: load word 2 and test bit 16 -/
  | word2
  | word0 (w2 : ℕ)
  | word1 (w2 id : ℕ)
  /-- batch: all loaded, the packet goes to the host adaptor -/
  | hand (w2 id w1 : ℕ)
  /-- batch: store the free words; `full` is the refusal of the host ring -/
  | clear0 (full : Bool)
  | clear1 (full : Bool)
  | clear2 (full : Bool)
  /-- single: load the flags byte and test bit 0 -/
  | flags
  | bufId
  | segLen (id : ℕ)
  | flags2 (id len : ℕ)
  | wcid (id len fl : ℕ)
  | info (id len fl w : ℕ)
  | orig (id len fl w i : ℕ)
  /-- single: the stores that free the entry -/
  | freeId
  | freeLens
  | freePkt
  | freeInfo
  | freeFlags
  /-- store the read index -/
  | ridx
  deriving DecidableEq

/-- A drain call: its local index and what is left of its batch. -/
structure Drain where
  idx : ℕ
  left : ℕ
  phase : DrainPhase
  deriving DecidableEq

/-- The queue of one band with its two sides, the packets accepted and
    the packets taken so far. -/
structure QueueState where
  cell : ℕ → QEntry
  widx : ℕ
  ridx : ℕ
  put : Option (PutPhase × RxPacket)
  drain : Option Drain
  accepted : List RxPacket
  taken : List Taken

/-- The index after `i`, as both sides compute it. -/
def txqNext (i : ℕ) : ℕ := if i + 1 = eagleTxqEntries then 0 else i + 1

/-- Change the entry at an index. -/
def QueueState.store (s : QueueState) (i : ℕ) (f : QEntry → QEntry) : QueueState :=
  { s with cell := Function.update s.cell i (f (s.cell i)) }

/-- The next access of the hart that holds mutex 10. -/
def QueueState.putStep (s : QueueState) : QueueState :=
  match s.put with
  | none => s
  | some (.test, p) =>
    -- an entry in use is the refusal
    if (s.cell s.widx).busy then { s with put := none }
    else { s with put := some (.bufId, p) }
  | some (.bufId, p) =>
    { s.store s.widx (fun e => { e with bufId := p.bufId }) with put := some (.wcid, p) }
  | some (.wcid, p) =>
    { s.store s.widx (fun e => { e with wcid := p.wcid }) with put := some (.segLen, p) }
  | some (.segLen, p) =>
    { s.store s.widx (fun e => { e with segLen := p.segLen }) with put := some (.pktLen, p) }
  | some (.pktLen, p) =>
    { s.store s.widx (fun e => { e with pktLen := p.pktLen }) with put := some (.info, p) }
  | some (.info, p) =>
    { s.store s.widx (fun e => { e with info := p.info }) with put := some (.flags, p) }
  | some (.flags, p) =>
    { s.store s.widx (fun e => { e with flags := p.flags ||| 1 }) with
      put := some (.widx, p)
      accepted := s.accepted ++ [p] }
  | some (.widx, _) => { s with widx := txqNext s.widx, put := none }

/-- A drain call goes on to another phase. -/
def QueueState.goto (s : QueueState) (d : Drain) (ph : DrainPhase) : QueueState :=
  { s with drain := some { d with phase := ph } }

/-- The next access of a drain call; `full` is the answer of the host
    ring where the packet is handed over. -/
def QueueState.drainStep (s : QueueState) (full : Bool) : QueueState :=
  match s.drain with
  | none => s
  | some d =>
    let e := s.cell d.idx
    match d.phase with
    | .word2 =>
      if e.word2 &&& 0x10000 = 0 then s.goto d .ridx else s.goto d (.word0 e.word2)
    | .word0 w2 => s.goto d (.word1 w2 e.bufId)
    | .word1 w2 id => s.goto d (.hand w2 id e.word1)
    | .hand w2 id w1 =>
      let t := takenOf id (w1 / 2 ^ 16 % 2 ^ 16) (w1 % 2 ^ 16) (w2 / 2 ^ 24 % 2 ^ 8)
        (w2 / 2 ^ 16 % 2 ^ 8) (w2 % 2 ^ 16)
      -- only a packet handed over can be refused
      { s.goto d (.clear0 (t.args.isSome && full)) with taken := s.taken ++ [t] }
    | .clear0 f => (s.store d.idx fun e => { e with bufId := 0xFFFFFFFF }).goto d (.clear1 f)
    | .clear1 f => (s.store d.idx fun e => { e with wcid := 0, segLen := 0 }).goto d (.clear2 f)
    | .clear2 f =>
      let s' := s.store d.idx fun e => { e with pktLen := 0, flags := 0, info := 0 }
      let d' : Drain := { d with idx := txqNext d.idx, left := d.left - 1 }
      if d.left - 1 ≠ 0 ∧ f = false then s'.goto d' .word2 else s'.goto d' .ridx
    | .flags => if e.flags &&& 1 = 0 then { s with drain := none } else s.goto d .bufId
    | .bufId => s.goto d (.segLen e.bufId)
    | .segLen id => s.goto d (.flags2 id e.segLen)
    | .flags2 id len =>
      if submits id len then s.goto d (.wcid id len e.flags)
      else { s.goto d .freeId with taken := s.taken ++ [takenOf id len 0 0 0 0] }
    | .wcid id len fl => s.goto d (.info id len fl e.wcid)
    | .info id len fl w => s.goto d (.orig id len fl w e.info)
    | .orig id len fl w i =>
      { s.goto d .freeId with taken := s.taken ++ [takenOf id len w i fl e.pktLen] }
    | .freeId => (s.store d.idx fun e => { e with bufId := 0xFFFFFFFF }).goto d .freeLens
    | .freeLens => (s.store d.idx fun e => { e with wcid := 0, segLen := 0 }).goto d .freePkt
    | .freePkt => (s.store d.idx fun e => { e with pktLen := 0 }).goto d .freeInfo
    | .freeInfo => (s.store d.idx fun e => { e with info := 0 }).goto d .freeFlags
    | .freeFlags =>
      (s.store d.idx fun e => { e with flags := 0 }).goto { d with idx := txqNext d.idx } .ridx
    | .ridx => { s with ridx := d.idx, drain := none }

/-- A hart takes mutex 10 with a whole frame, the drain is called, or a
    side does its next access. -/
inductive QueueAction where
  | enqueue (p : RxPacket)
  | put
  | call
  | drain (full : Bool)

/-- The first phase of a drain call: the batch version reads whole words. -/
def drainStart (b : Build) (ridx : ℕ) : Drain :=
  if b.hasIdBatch then ⟨ridx, eagleDrainBatch b, .word2⟩ else ⟨ridx, eagleDrainBatch b, .flags⟩

/-- The queue as `eagle_queue_init` leaves it, and all runs of both
    sides. A frame in several buffers goes to another queue. -/
def queueSystem (b : Build) : StepSystem QueueState QueueAction where
  init := fun s => s = ⟨fun _ => ⟨0xFFFFFFFF, 0, 0, 0, 0, 0⟩, 0, 0, none, none, [], []⟩
  step := fun s a s' =>
    match a with
    | .enqueue p => s.put = none ∧ p.pktLen = p.segLen ∧ s' = { s with put := some (.test, p) }
    | .put => s' = s.putStep
    | .call => s.drain = none ∧ s' = { s with drain := some (drainStart b s.ridx) }
    | .drain full => s' = s.drainStep full

/-! ## First in, first out -/

/-- The drain is past taking the entry at its index and has not freed it
    yet. -/
def DrainPhase.clearing : DrainPhase → Bool
  | .clear0 _ | .clear1 _ | .clear2 _ => true
  | .freeId | .freeLens | .freePkt | .freeInfo | .freeFlags => true
  | _ => false

/-- The index of the entry to be taken next. -/
def QueueState.head (s : QueueState) : ℕ :=
  match s.drain with
  | none => s.ridx
  | some d => if d.phase.clearing then txqNext d.idx else d.idx

/-- The packets accepted are those taken and those that lie whole in the
    ring from the next entry to be taken on. -/
def QueueFifo (s : QueueState) : Prop :=
  ∃ done q : List RxPacket, s.accepted = done ++ q ∧ s.taken = done.map RxPacket.taken ∧
    q.length ≤ eagleTxqEntries ∧
    ∀ j (h : j < q.length), s.cell ((s.head + j) % eagleTxqEntries) = q[j].entry

/-- An enqueue that finds its entry in use changes no entry, no index and
    no history. -/
def QueueRefusal (s : QueueState) : Prop :=
  ∀ p, s.put = some (.test, p) → (s.cell s.widx).busy = true →
    s.putStep = { s with put := none }

/-! ## The invariant -/

/-- The phases in which the drain works on a filled entry. -/
def DrainPhase.owns : DrainPhase → Bool
  | .word2 | .flags | .ridx => false
  | _ => true

/-- What a drain call has loaded so far is what the packet is stored as. -/
def DrainPhase.Local (p : RxPacket) : DrainPhase → Prop
  | .word0 w2 => w2 = p.entry.word2
  | .word1 w2 id => w2 = p.entry.word2 ∧ id = p.entry.bufId
  | .hand w2 id w1 => w2 = p.entry.word2 ∧ id = p.entry.bufId ∧ w1 = p.entry.word1
  | .segLen id => id = p.entry.bufId
  | .flags2 id len => id = p.entry.bufId ∧ len = p.entry.segLen
  | .wcid id len fl =>
    id = p.entry.bufId ∧ len = p.entry.segLen ∧ fl = p.entry.flags
  | .info id len fl w =>
    id = p.entry.bufId ∧ len = p.entry.segLen ∧ fl = p.entry.flags ∧ w = p.entry.wcid
  | .orig id len fl w i =>
    id = p.entry.bufId ∧ len = p.entry.segLen ∧ fl = p.entry.flags ∧ w = p.entry.wcid ∧
      i = p.entry.info
  | _ => True

/-- The phases in which the producer fills a free entry. -/
def PutPhase.owns : PutPhase → Bool
  | .test | .widx => false
  | _ => true

/-- The fields the producer has stored by a phase. -/
def PutPhase.Stored (p : RxPacket) (e : QEntry) : PutPhase → Prop
  | .wcid => e.bufId = p.bufId
  | .segLen => e.bufId = p.bufId ∧ e.wcid = p.wcid
  | .pktLen => e.bufId = p.bufId ∧ e.wcid = p.wcid ∧ e.segLen = p.segLen
  | .info =>
    e.bufId = p.bufId ∧ e.wcid = p.wcid ∧ e.segLen = p.segLen ∧ e.pktLen = p.pktLen
  | .flags =>
    e.bufId = p.bufId ∧ e.wcid = p.wcid ∧ e.segLen = p.segLen ∧ e.pktLen = p.pktLen ∧
      e.info = p.info
  | _ => True

/-- The write index once the store under way is done. -/
def QueueState.widxView (s : QueueState) : ℕ :=
  match s.put with
  | some (.widx, _) => txqNext s.widx
  | _ => s.widx

/-- The oldest entry the drain has not freed. -/
def QueueState.ridxView (s : QueueState) : ℕ :=
  match s.drain with
  | none => s.ridx
  | some d => d.idx

/-- The drain has taken the entry at its index and not freed it yet. -/
def QueueState.clearing (s : QueueState) : Bool :=
  match s.drain with
  | none => false
  | some d => d.phase.clearing

/-- The state against a ring of flagged slots that carries the packets. -/
structure FifoInv (s : QueueState) (r : FlagRing RxPacket) : Prop where
  ok : r.Ok eagleTxqEntries
  busy : ∀ i, (s.cell i).busy = (r.slot i).isSome
  whole : ∀ i p, r.slot i = some p → (s.clearing = true → i ≠ s.ridxView) → s.cell i = p.entry
  narrow : ∀ i, (s.cell i).pktLen < 2 ^ 16
  widx : r.widx = s.widxView
  ridx : r.ridx = s.ridxView
  put : ∀ ph p, s.put = some (ph, p) → ph.owns = true →
    (s.cell s.widx).busy = false ∧ ph.Stored p (s.cell s.widx)
  drain : ∀ d, s.drain = some d → d.phase.owns = true → ∃ p, r.slot d.idx = some p ∧ d.phase.Local p
  start : ∀ d, s.drain = some d → d.phase = .flags → d.idx = s.ridx
  ledger : ∃ done, s.accepted = done ++ r.contents eagleTxqEntries ∧
    s.taken = (done ++ if s.clearing then (r.contents eagleTxqEntries).take 1 else []).map
      RxPacket.taken

variable {b : Build} {s : QueueState} {r : FlagRing RxPacket} {d : Drain} {p : RxPacket}
  {ph : DrainPhase} {pp : PutPhase} {f : QEntry → QEntry} {i : ℕ}

theorem txqNext_eq (i : ℕ) : txqNext i = Circular.next (eagleTxqEntries - 1) i := by
  unfold txqNext Circular.next eagleTxqEntries
  split_ifs <;> omega

theorem DrainPhase.owns_of_clearing (h : ph.clearing = true) : ph.owns = true := by
  cases ph <;> first | rfl | cases h

/-! ## Stores -/

theorem store_self : (s.store i f).cell i = f (s.cell i) := Function.update_self ..

theorem store_of_ne {j : ℕ} (h : j ≠ i) : (s.store i f).cell j = s.cell j :=
  Function.update_of_ne h ..

/-- A store that keeps the flags byte of its entry keeps every flag. -/
theorem store_busy (h : (f (s.cell i)).flags = (s.cell i).flags) (j : ℕ) :
    ((s.store i f).cell j).busy = (s.cell j).busy := by
  by_cases hj : j = i
  · rw [hj, store_self]
    unfold QEntry.busy
    rw [h]
  · rw [store_of_ne hj]

theorem store_narrow (hs : ∀ j, (s.cell j).pktLen < 2 ^ 16) (h : (f (s.cell i)).pktLen < 2 ^ 16)
    (j : ℕ) : ((s.store i f).cell j).pktLen < 2 ^ 16 := by
  by_cases hj : j = i
  · rw [hj, store_self]
    exact h
  · rw [store_of_ne hj]
    exact hs j

/-- While the drain frees an entry, its packet is the first of the ring. -/
theorem contents_of_clearing (h : FifoInv s r) (hcl : s.clearing = true) :
    ∃ p, r.contents eagleTxqEntries = p :: (r.pop eagleTxqEntries).contents eagleTxqEntries := by
  unfold QueueState.clearing at hcl
  cases hd : s.drain with
  | none =>
    rw [hd] at hcl
    cases hcl
  | some d =>
    rw [hd] at hcl
    obtain ⟨p, hslot, -⟩ := h.drain d hd (DrainPhase.owns_of_clearing hcl)
    have hridx : r.ridx = d.idx := by
      rw [h.ridx]
      simp only [QueueState.ridxView, hd]
    rw [← hridx] at hslot
    exact ⟨p, (h.ok.pop hslot).2⟩

/-! ## Steps of the producer -/

theorem widxView_eq (h : ∀ p, s.put ≠ some (.widx, p)) : s.widxView = s.widx := by
  unfold QueueState.widxView
  split
  · next q hq => exact absurd hq (h q)
  · rfl

/-- A filled entry is not the one at the write index of a producer that
    found it free. -/
theorem ne_of_slot (h : FifoInv s r) (hfree : (s.cell s.widx).busy = false)
    (hslot : r.slot i = some p) : i ≠ s.widx := by
  intro heq
  have hbusy := h.busy i
  rw [hslot, heq, hfree] at hbusy
  cases hbusy

/-- The producer changes its phase only. -/
theorem inv_putTo {o : Option (PutPhase × RxPacket)} (h : FifoInv s r)
    (hview : ({ s with put := o } : QueueState).widxView = s.widxView)
    (hput : ∀ ph p, o = some (ph, p) → ph.owns = true →
      (s.cell s.widx).busy = false ∧ ph.Stored p (s.cell s.widx)) :
    FifoInv { s with put := o } r where
  ok := h.ok
  busy := h.busy
  whole := h.whole
  narrow := h.narrow
  widx := h.widx.trans hview.symm
  ridx := h.ridx
  put := hput
  drain := h.drain
  start := h.start
  ledger := h.ledger

/-- The producer stores a field of the free entry. -/
theorem inv_putStore {pp' : PutPhase} (h : FifoInv s r) (hp : s.put = some (pp, p))
    (howns : pp.owns = true) (hflags : (f (s.cell s.widx)).flags = (s.cell s.widx).flags)
    (hnarrow : (f (s.cell s.widx)).pktLen < 2 ^ 16) (hpp' : pp' ≠ .widx)
    (hstored : pp'.Stored p (f (s.cell s.widx))) :
    FifoInv { s.store s.widx f with put := some (pp', p) } r where
  ok := h.ok
  busy := fun j => (store_busy hflags j).trans (h.busy j)
  whole := by
    intro j q hslot hcl
    have hne := ne_of_slot h (h.put pp p hp howns).1 hslot
    show (s.store s.widx f).cell j = q.entry
    rw [store_of_ne hne]
    exact h.whole j q hslot hcl
  narrow := store_narrow h.narrow hnarrow
  widx := by
    rw [h.widx, widxView_eq, widxView_eq]
    · rfl
    · intro q hq
      exact hpp' (Prod.mk.inj (Option.some.inj hq)).1
    · intro q hq
      rw [hp] at hq
      rw [(Prod.mk.inj (Option.some.inj hq)).1] at howns
      cases howns
  ridx := h.ridx
  put := by
    intro ph q hput _
    obtain ⟨rfl, rfl⟩ := Prod.mk.inj (Option.some.inj hput)
    refine ⟨?_, ?_⟩
    · show ((s.store s.widx f).cell s.widx).busy = false
      rw [store_busy hflags]
      exact (h.put pp p hp howns).1
    · show pp'.Stored p ((s.store s.widx f).cell s.widx)
      rw [store_self]
      exact hstored
  drain := h.drain
  start := h.start
  ledger := h.ledger

/-- The flag is stored last: the put. -/
theorem queue_put (h : FifoInv s r) (hp : s.put = some (.flags, p)) :
    r.put eagleTxqEntries p =
      some ⟨Function.update r.slot s.widx (some p), txqNext s.widx, r.ridx⟩ := by
  have hw : r.widx = s.widx := by
    rw [h.widx, widxView_eq]
    intro q hq
    rw [hp] at hq
    cases hq
  have hbusy := h.busy s.widx
  rw [(h.put .flags p hp rfl).1] at hbusy
  unfold FlagRing.put
  rw [hw, ← hbusy, txqNext_eq]
  rfl

theorem inv_putFlags (h : FifoInv s r) (hp : s.put = some (.flags, p)) :
    ∃ r', FifoInv s.putStep r' := by
  have hput := queue_put h hp
  obtain ⟨hok, hcontents⟩ := h.ok.put hput
  obtain ⟨hfree, hid, hwcid, hseg, hpkt, hinfo⟩ := h.put .flags p hp rfl
  refine ⟨⟨Function.update r.slot s.widx (some p), txqNext s.widx, r.ridx⟩, ?_⟩
  simp only [QueueState.putStep, hp]
  -- with the flags the entry is the packet's: it joins the ring
  set f : QEntry → QEntry := fun e => { e with flags := p.flags ||| 1 } with hf
  have hcell : f (s.cell s.widx) = p.entry := by
    simp only [hf, RxPacket.entry, hid, hwcid, hseg, hpkt, hinfo]
  refine ⟨hok, ?_, ?_, ?_, rfl, h.ridx, ?_, ?_, h.start, ?_⟩
  · intro i
    show ((s.store s.widx f).cell i).busy = (Function.update r.slot s.widx (some p) i).isSome
    by_cases hi : i = s.widx
    · rw [hi, store_self, hcell, Function.update_self]
      exact p.entry_busy
    · rw [store_of_ne hi, Function.update_of_ne hi]
      exact h.busy i
  · intro i q hslot hcl
    show (s.store s.widx f).cell i = q.entry
    by_cases hi : i = s.widx
    · have hpq : Function.update r.slot s.widx (some p) s.widx = some q := hi ▸ hslot
      rw [Function.update_self] at hpq
      rw [hi, store_self, hcell, Option.some.inj hpq]
    · rw [store_of_ne hi]
      have hold : Function.update r.slot s.widx (some p) i = some q := hslot
      rw [Function.update_of_ne hi] at hold
      exact h.whole i q hold hcl
  · apply store_narrow h.narrow
    rw [hcell]
    exact p.pktLen_lt
  · intro ph q hq howns
    obtain ⟨rfl, -⟩ := Prod.mk.inj (Option.some.inj hq)
    cases howns
  · intro d hd howns
    obtain ⟨q, hslot, hloc⟩ := h.drain d hd howns
    refine ⟨q, ?_, hloc⟩
    show Function.update r.slot s.widx (some p) d.idx = some q
    rw [Function.update_of_ne (ne_of_slot h hfree hslot)]
    exact hslot
  · -- the new packet is behind the one being freed, if there is one
    obtain ⟨done, hacc, htaken⟩ := h.ledger
    refine ⟨done, ?_, ?_⟩
    · show s.accepted ++ [p] = _
      rw [hacc, hcontents, List.append_assoc]
    · show s.taken = (done ++ if s.clearing then _ else []).map _
      rw [htaken, hcontents]
      by_cases hcl : s.clearing = true
      · obtain ⟨q, hq⟩ := contents_of_clearing h hcl
        rw [if_pos hcl, if_pos hcl, hq, List.cons_append, List.take_succ_cons, List.take_zero,
          List.take_succ_cons, List.take_zero]
      · rw [if_neg hcl, if_neg hcl]

theorem inv_putStep (h : FifoInv s r) : ∃ r', FifoInv s.putStep r' := by
  cases hp : s.put with
  | none =>
    simp only [QueueState.putStep, hp]
    exact ⟨r, h⟩
  | some x =>
    obtain ⟨pp, p⟩ := x
    have hstored := h.put pp p hp
    have hnarrow := h.narrow s.widx
    -- each store adds a field to what is stored; the flags hand over
    cases pp with
    | test =>
      simp only [QueueState.putStep, hp]
      have hview (o : Option (PutPhase × RxPacket)) (ho : ∀ p, o ≠ some (.widx, p)) :
          ({ s with put := o } : QueueState).widxView = s.widxView := by
        rw [widxView_eq ho, widxView_eq]
        intro q hq
        rw [hp] at hq
        cases hq
      by_cases hused : (s.cell s.widx).busy = true
      · rw [if_pos hused]
        exact ⟨r, inv_putTo h (hview _ (by intro q hq; cases hq)) (by intro ph q hq; cases hq)⟩
      · rw [if_neg hused]
        refine ⟨r, inv_putTo h (hview _ (by intro q hq; cases hq)) ?_⟩
        intro ph q hq _
        obtain ⟨rfl, rfl⟩ := Prod.mk.inj (Option.some.inj hq)
        exact ⟨Bool.eq_false_iff.mpr hused, trivial⟩
    | bufId =>
      simp only [QueueState.putStep, hp]
      exact ⟨r, inv_putStore h hp rfl rfl hnarrow (by decide) rfl⟩
    | wcid =>
      simp only [QueueState.putStep, hp]
      exact ⟨r, inv_putStore h hp rfl rfl hnarrow (by decide) ⟨(hstored rfl).2, rfl⟩⟩
    | segLen =>
      simp only [QueueState.putStep, hp]
      obtain ⟨-, hid, hwcid⟩ := hstored rfl
      exact ⟨r, inv_putStore h hp rfl rfl hnarrow (by decide) ⟨hid, hwcid, rfl⟩⟩
    | pktLen =>
      simp only [QueueState.putStep, hp]
      obtain ⟨-, hid, hwcid, hseg⟩ := hstored rfl
      exact ⟨r, inv_putStore h hp rfl rfl p.pktLen_lt (by decide) ⟨hid, hwcid, hseg, rfl⟩⟩
    | info =>
      simp only [QueueState.putStep, hp]
      obtain ⟨-, hid, hwcid, hseg, hpkt⟩ := hstored rfl
      exact ⟨r, inv_putStore h hp rfl rfl hnarrow (by decide) ⟨hid, hwcid, hseg, hpkt, rfl⟩⟩
    | flags => exact inv_putFlags h hp
    | widx =>
      simp only [QueueState.putStep, hp]
      have hw : r.widx = txqNext s.widx := by
        rw [h.widx]
        simp only [QueueState.widxView, hp]
      exact ⟨r, h.ok, h.busy, h.whole, h.narrow, hw, h.ridx, fun _ _ hq => (by cases hq), h.drain,
        h.start, h.ledger⟩

/-! ## Steps of the drain -/

theorem ridxView_of_drain (hd : s.drain = some d) : s.ridxView = d.idx := by
  simp only [QueueState.ridxView, hd]

theorem ridx_of_drain (h : FifoInv s r) (hd : s.drain = some d) : r.ridx = d.idx := by
  rw [h.ridx, ridxView_of_drain hd]

theorem clearing_of_drain (hd : s.drain = some d) : s.clearing = d.phase.clearing := by
  simp only [QueueState.clearing, hd]

/-- Away from the clearing stores a filled entry is its packet. -/
theorem cell_of_slot (h : FifoInv s r) (hd : s.drain = some d) (hcl : d.phase.clearing = false)
    (hslot : r.slot i = some p) : s.cell i = p.entry := by
  apply h.whole i p hslot
  intro hc
  rw [clearing_of_drain hd, hcl] at hc
  cases hc

/-- The drain goes on to its next load. -/
theorem inv_goto (h : FifoInv s r) (hd : s.drain = some d) (hcl : d.phase.clearing = false)
    (hcl' : ph.clearing = false) (hne : ph ≠ .flags)
    (hloc : ph.owns = true → ∃ p, r.slot d.idx = some p ∧ ph.Local p) :
    FifoInv (s.goto d ph) r where
  ok := h.ok
  busy := h.busy
  whole := fun i p hslot _ => show s.cell i = p.entry from cell_of_slot h hd hcl hslot
  narrow := h.narrow
  widx := h.widx
  ridx := by
    have hridx := ridx_of_drain h hd
    exact hridx
  put := h.put
  drain := by
    intro d' hd' howns
    obtain rfl := Option.some.inj hd'
    exact hloc howns
  start := by
    intro d' hd' hflags
    obtain rfl := Option.some.inj hd'
    exact absurd hflags hne
  ledger := by
    obtain ⟨done, hacc, htaken⟩ := h.ledger
    refine ⟨done, hacc, ?_⟩
    rw [clearing_of_drain hd, hcl] at htaken
    show s.taken = (done ++ if ph.clearing = true then _ else []).map _
    rw [hcl']
    exact htaken

/-- The drain takes the packet. -/
theorem inv_take (h : FifoInv s r) (hd : s.drain = some d) (hcl : d.phase.clearing = false)
    (hcl' : ph.clearing = true) (hslot : r.slot d.idx = some p) (hloc : ph.Local p) :
    FifoInv { s.goto d ph with taken := s.taken ++ [p.taken] } r where
  ok := h.ok
  busy := h.busy
  whole := fun i p hslot _ => show s.cell i = p.entry from cell_of_slot h hd hcl hslot
  narrow := h.narrow
  widx := h.widx
  ridx := by
    have hridx := ridx_of_drain h hd
    exact hridx
  put := h.put
  drain := by
    intro d' hd' _
    obtain rfl := Option.some.inj hd'
    exact ⟨p, hslot, hloc⟩
  start := by
    intro d' hd' hph
    obtain rfl := Option.some.inj hd'
    rw [show ph = .flags from hph] at hcl'
    cases hcl'
  ledger := by
    obtain ⟨done, hacc, htaken⟩ := h.ledger
    refine ⟨done, hacc, ?_⟩
    rw [clearing_of_drain hd, hcl] at htaken
    have hridx : r.ridx = d.idx := ridx_of_drain h hd
    have hhead : r.slot r.ridx = some p := by
      rw [hridx]
      exact hslot
    show s.taken ++ [p.taken] = (done ++ if ph.clearing = true then _ else []).map _
    rw [hcl', if_pos rfl, (h.ok.pop hhead).2, List.take_succ_cons, List.take_zero, htaken]
    simp

/-- The drain clears fields of the entry, the flags excepted. -/
theorem inv_clear (h : FifoInv s r) (hd : s.drain = some d) (hcl : d.phase.clearing = true)
    (hcl' : ph.clearing = true) (hloc : ∀ p, ph.Local p)
    (hflags : (f (s.cell d.idx)).flags = (s.cell d.idx).flags)
    (hnarrow : (f (s.cell d.idx)).pktLen < 2 ^ 16) :
    FifoInv ((s.store d.idx f).goto d ph) r where
  ok := h.ok
  busy := fun j => (store_busy hflags j).trans (h.busy j)
  whole := by
    intro i p hslot hne
    -- the entry being cleared is excepted
    have hi : i ≠ d.idx := hne hcl'
    show (s.store d.idx f).cell i = p.entry
    rw [store_of_ne hi]
    apply h.whole i p hslot
    intro _
    rw [ridxView_of_drain hd]
    exact hi
  narrow := store_narrow h.narrow hnarrow
  widx := h.widx
  ridx := by
    have hridx := ridx_of_drain h hd
    exact hridx
  put := by
    intro pp q hp howns
    obtain ⟨hfree, hstored⟩ := h.put pp q hp howns
    obtain ⟨p, hslot, -⟩ := h.drain d hd (DrainPhase.owns_of_clearing hcl)
    -- the producer is at a free entry, so at another one
    have hne := ne_of_slot h hfree hslot
    show ((s.store d.idx f).cell s.widx).busy = false ∧
      pp.Stored q ((s.store d.idx f).cell s.widx)
    rw [store_of_ne hne.symm]
    exact ⟨hfree, hstored⟩
  drain := by
    intro d' hd' _
    obtain rfl := Option.some.inj hd'
    obtain ⟨p, hslot, -⟩ := h.drain d hd (DrainPhase.owns_of_clearing hcl)
    exact ⟨p, hslot, hloc p⟩
  start := by
    intro d' hd' hph
    obtain rfl := Option.some.inj hd'
    rw [show ph = .flags from hph] at hcl'
    cases hcl'
  ledger := by
    obtain ⟨done, hacc, htaken⟩ := h.ledger
    refine ⟨done, hacc, ?_⟩
    rw [clearing_of_drain hd, hcl] at htaken
    show s.taken = (done ++ if ph.clearing = true then _ else []).map _
    rw [hcl']
    exact htaken

/-- The drain clears the flags byte: the pop. -/
theorem inv_pop {d' : Drain} (h : FifoInv s r) (hd : s.drain = some d)
    (hcl : d.phase.clearing = true) (hidx : d'.idx = txqNext d.idx) (howns' : ph.owns = false)
    (hne' : ph ≠ .flags) (hflags : (f (s.cell d.idx)).flags = 0)
    (hnarrow : (f (s.cell d.idx)).pktLen < 2 ^ 16) :
    FifoInv ((s.store d.idx f).goto d' ph) (r.pop eagleTxqEntries) := by
  obtain ⟨p, hslot, -⟩ := h.drain d hd (DrainPhase.owns_of_clearing hcl)
  have hridx : r.ridx = d.idx := ridx_of_drain h hd
  have hhead : r.slot r.ridx = some p := by
    rw [hridx]
    exact hslot
  obtain ⟨hok, hcontents⟩ := h.ok.pop hhead
  have hcl' : ph.clearing = false := by
    by_contra hc
    rw [DrainPhase.owns_of_clearing (Bool.not_eq_false _ ▸ hc)] at howns'
    cases howns'
  -- the entry is empty from now on, and the cursor is behind it
  have hpop (i : ℕ) : (r.pop eagleTxqEntries).slot i = Function.update r.slot d.idx none i := by
    rw [← hridx]
    rfl
  refine ⟨hok, ?_, ?_, store_narrow h.narrow hnarrow, h.widx, ?_, ?_, ?_, ?_, ?_⟩
  · intro i
    rw [hpop]
    show ((s.store d.idx f).cell i).busy = _
    by_cases hi : i = d.idx
    · rw [hi, store_self, Function.update_self]
      unfold QEntry.busy
      rw [hflags]
      rfl
    · rw [store_of_ne hi, Function.update_of_ne hi]
      exact h.busy i
  · intro i q hq _
    rw [hpop] at hq
    show (s.store d.idx f).cell i = q.entry
    by_cases hi : i = d.idx
    · rw [hi, Function.update_self] at hq
      cases hq
    · rw [Function.update_of_ne hi] at hq
      rw [store_of_ne hi]
      apply h.whole i q hq
      intro _
      rw [ridxView_of_drain hd]
      exact hi
  · show Circular.next (eagleTxqEntries - 1) r.ridx = d'.idx
    rw [hidx, txqNext_eq, hridx]
  · intro pp q hp howns
    obtain ⟨hfree, hstored⟩ := h.put pp q hp howns
    have hne := ne_of_slot h hfree hslot
    show ((s.store d.idx f).cell s.widx).busy = false ∧
      pp.Stored q ((s.store d.idx f).cell s.widx)
    rw [store_of_ne hne.symm]
    exact ⟨hfree, hstored⟩
  · intro d'' hd'' howns
    obtain rfl := Option.some.inj hd''
    rw [howns'] at howns
    cases howns
  · intro d'' hd'' hph
    obtain rfl := Option.some.inj hd''
    exact absurd hph hne'
  · obtain ⟨done, hacc, htaken⟩ := h.ledger
    rw [clearing_of_drain hd, hcl, if_pos rfl, hcontents, List.take_succ_cons,
      List.take_zero] at htaken
    -- the packet moves from the ring to those done
    refine ⟨done ++ [p], ?_, ?_⟩
    · show s.accepted = _
      rw [hacc, hcontents, List.append_assoc, List.singleton_append]
    · show s.taken = (done ++ [p] ++ if ph.clearing = true then _ else []).map _
      rw [hcl', htaken, if_neg (by decide), List.append_nil]

/-- The single drain's loads: the next phase's locals are the packet's. -/
theorem inv_load (h : FifoInv s r) (hd : s.drain = some d) (hcl : d.phase.clearing = false)
    (howns : d.phase.owns = true) (hcl' : ph.clearing = false) (hne : ph ≠ .flags)
    (hloc : ∀ p, d.phase.Local p → s.cell d.idx = p.entry → ph.Local p) :
    FifoInv (s.goto d ph) r := by
  obtain ⟨p, hslot, hp⟩ := h.drain d hd howns
  apply inv_goto h hd hcl hcl' hne
  intro _
  exact ⟨p, hslot, hloc p hp (cell_of_slot h hd hcl hslot)⟩

/-- The drain finds the flag set: a packet is there. -/
theorem inv_found (h : FifoInv s r) (hd : s.drain = some d) (hcl : d.phase.clearing = false)
    (hbusy : (s.cell d.idx).busy = true) (hcl' : ph.clearing = false) (hne : ph ≠ .flags)
    (hloc : ∀ p, s.cell d.idx = p.entry → ph.Local p) : FifoInv (s.goto d ph) r := by
  apply inv_goto h hd hcl hcl' hne
  intro _
  rw [h.busy d.idx] at hbusy
  obtain ⟨p, hslot⟩ := Option.isSome_iff_exists.mp hbusy
  exact ⟨p, hslot, hloc p (cell_of_slot h hd hcl hslot)⟩

/-- No drain call is under way any more. -/
theorem inv_leave (h : FifoInv s r) (hd : s.drain = some d) (hcl : d.phase.clearing = false)
    {i : ℕ} (hi : i = d.idx) : FifoInv { s with ridx := i, drain := none } r where
  ok := h.ok
  busy := h.busy
  whole := fun i p hslot _ => show s.cell i = p.entry from cell_of_slot h hd hcl hslot
  narrow := h.narrow
  widx := h.widx
  ridx := (ridx_of_drain h hd).trans hi.symm
  put := h.put
  drain := fun _ hd' => by cases hd'
  start := fun _ hd' => by cases hd'
  ledger := by
    obtain ⟨done, hacc, htaken⟩ := h.ledger
    refine ⟨done, hacc, ?_⟩
    rw [clearing_of_drain hd, hcl] at htaken
    exact htaken

/-- The steps of the batch drain. -/
theorem inv_batchStep {full : Bool} (h : FifoInv s r) (hd : s.drain = some d)
    (hph : d.phase = .word2 ∨ (∃ w2, d.phase = .word0 w2) ∨ (∃ w2 id, d.phase = .word1 w2 id) ∨
      (∃ w2 id w1, d.phase = .hand w2 id w1) ∨ (∃ f, d.phase = .clear0 f) ∨
      (∃ f, d.phase = .clear1 f) ∨ ∃ f, d.phase = .clear2 f) :
    ∃ r', FifoInv (s.drainStep full) r' := by
  have hnarrow := h.narrow d.idx
  rcases hph with hp | ⟨w2, hp⟩ | ⟨w2, id, hp⟩ | ⟨w2, id, w1, hp⟩ | ⟨f, hp⟩ | ⟨f, hp⟩ | ⟨f, hp⟩
  · have hcl : d.phase.clearing = false := by rw [hp]; rfl
    simp only [QueueState.drainStep, hd, hp]
    by_cases hfree : (s.cell d.idx).word2 &&& 0x10000 = 0
    · rw [if_pos hfree]
      exact ⟨r, inv_goto h hd hcl rfl (by simp) (by intro hc; cases hc)⟩
    · rw [if_neg hfree]
      -- the flag is a bit of the third word
      have hbusy : (s.cell d.idx).busy = true := by
        rw [word2_and _ hnarrow] at hfree
        exact Bool.not_eq_false _ ▸ hfree
      refine ⟨r, inv_found h hd hcl hbusy rfl (by simp) ?_⟩
      intro p hcell
      exact congrArg QEntry.word2 hcell
  · have hcl : d.phase.clearing = false := by rw [hp]; rfl
    have howns : d.phase.owns = true := by rw [hp]; rfl
    simp only [QueueState.drainStep, hd, hp]
    refine ⟨r, inv_load h hd hcl howns rfl (by simp) ?_⟩
    intro p hloc hcell
    rw [hp] at hloc
    exact ⟨hloc, congrArg QEntry.bufId hcell⟩
  · have hcl : d.phase.clearing = false := by rw [hp]; rfl
    have howns : d.phase.owns = true := by rw [hp]; rfl
    simp only [QueueState.drainStep, hd, hp]
    refine ⟨r, inv_load h hd hcl howns rfl (by simp) ?_⟩
    intro p hloc hcell
    rw [hp] at hloc
    obtain ⟨hw2, hid⟩ := hloc
    exact ⟨hw2, hid, congrArg QEntry.word1 hcell⟩
  · have hcl : d.phase.clearing = false := by rw [hp]; rfl
    have howns : d.phase.owns = true := by rw [hp]; rfl
    obtain ⟨p, hslot, hloc⟩ := h.drain d hd howns
    rw [hp] at hloc
    obtain ⟨rfl, rfl, rfl⟩ := hloc
    simp only [QueueState.drainStep, hd, hp]
    -- the words read give the packet that was put
    rw [takenOf_words p]
    exact ⟨r, inv_take h hd hcl rfl hslot trivial⟩
  · have hcl : d.phase.clearing = true := by rw [hp]; rfl
    simp only [QueueState.drainStep, hd, hp]
    exact ⟨r, inv_clear h hd hcl rfl (fun _ => trivial) rfl hnarrow⟩
  · have hcl : d.phase.clearing = true := by rw [hp]; rfl
    simp only [QueueState.drainStep, hd, hp]
    exact ⟨r, inv_clear h hd hcl rfl (fun _ => trivial) rfl hnarrow⟩
  · have hcl : d.phase.clearing = true := by rw [hp]; rfl
    simp only [QueueState.drainStep, hd, hp]
    have hzero : 0 < 2 ^ 16 := by decide
    split
    · exact ⟨_, inv_pop h hd hcl rfl rfl (by simp) rfl hzero⟩
    · exact ⟨_, inv_pop h hd hcl rfl rfl (by simp) rfl hzero⟩

theorem inv_drainStep {full : Bool} (h : FifoInv s r) : ∃ r', FifoInv (s.drainStep full) r' := by
  cases hd : s.drain with
  | none =>
    simp only [QueueState.drainStep, hd]
    exact ⟨r, h⟩
  | some d =>
    have hnarrow := h.narrow d.idx
    cases hp : d.phase with
    -- the batch drain's phases
    | word2 => exact inv_batchStep h hd (by simp [hp])
    | word0 w2 => exact inv_batchStep h hd (by simp [hp])
    | word1 w2 id => exact inv_batchStep h hd (by simp [hp])
    | hand w2 id w1 => exact inv_batchStep h hd (by simp [hp])
    | clear0 f => exact inv_batchStep h hd (by simp [hp])
    | clear1 f => exact inv_batchStep h hd (by simp [hp])
    | clear2 f => exact inv_batchStep h hd (by simp [hp])
    -- the single drain's phases: the loads, the hand-over, the clearing
    | flags =>
      have hcl : d.phase.clearing = false := by rw [hp]; rfl
      simp only [QueueState.drainStep, hd, hp]
      by_cases hfree : (s.cell d.idx).flags &&& 1 = 0
      · rw [if_pos hfree]
        exact ⟨r, inv_leave h hd hcl (h.start d hd hp).symm⟩
      · rw [if_neg hfree]
        have hbusy : (s.cell d.idx).busy = true := decide_eq_true hfree
        exact ⟨r, inv_found h hd hcl hbusy rfl (by simp) fun _ _ => trivial⟩
    | bufId =>
      have hcl : d.phase.clearing = false := by rw [hp]; rfl
      have howns : d.phase.owns = true := by rw [hp]; rfl
      simp only [QueueState.drainStep, hd, hp]
      refine ⟨r, inv_load h hd hcl howns rfl (by simp) ?_⟩
      intro p _ hcell
      exact congrArg QEntry.bufId hcell
    | segLen id =>
      have hcl : d.phase.clearing = false := by rw [hp]; rfl
      have howns : d.phase.owns = true := by rw [hp]; rfl
      simp only [QueueState.drainStep, hd, hp]
      refine ⟨r, inv_load h hd hcl howns rfl (by simp) ?_⟩
      intro p hloc hcell
      rw [hp] at hloc
      exact ⟨hloc, congrArg QEntry.segLen hcell⟩
    | flags2 id len =>
      have hcl : d.phase.clearing = false := by rw [hp]; rfl
      have howns : d.phase.owns = true := by rw [hp]; rfl
      simp only [QueueState.drainStep, hd, hp]
      by_cases hsub : submits id len = true
      · rw [if_pos hsub]
        refine ⟨r, inv_load h hd hcl howns rfl (by simp) ?_⟩
        intro p hloc hcell
        rw [hp] at hloc
        obtain ⟨hid, hlen⟩ := hloc
        exact ⟨hid, hlen, congrArg QEntry.flags hcell⟩
      · rw [if_neg hsub]
        obtain ⟨p, hslot, hloc⟩ := h.drain d hd howns
        rw [hp] at hloc
        obtain ⟨rfl, rfl⟩ := hloc
        -- a frame that is not submitted has no other field read
        have htaken : takenOf p.entry.bufId p.entry.segLen 0 0 0 0 = p.taken := by
          rw [← takenOf_entry p]
          unfold takenOf
          rw [if_neg hsub, if_neg hsub]
        rw [htaken]
        exact ⟨r, inv_take h hd hcl rfl hslot trivial⟩
    | wcid id len fl =>
      have hcl : d.phase.clearing = false := by rw [hp]; rfl
      have howns : d.phase.owns = true := by rw [hp]; rfl
      simp only [QueueState.drainStep, hd, hp]
      refine ⟨r, inv_load h hd hcl howns rfl (by simp) ?_⟩
      intro p hloc hcell
      rw [hp] at hloc
      obtain ⟨hid, hlen, hfl⟩ := hloc
      exact ⟨hid, hlen, hfl, congrArg QEntry.wcid hcell⟩
    | info id len fl w =>
      have hcl : d.phase.clearing = false := by rw [hp]; rfl
      have howns : d.phase.owns = true := by rw [hp]; rfl
      simp only [QueueState.drainStep, hd, hp]
      refine ⟨r, inv_load h hd hcl howns rfl (by simp) ?_⟩
      intro p hloc hcell
      rw [hp] at hloc
      obtain ⟨hid, hlen, hfl, hw⟩ := hloc
      exact ⟨hid, hlen, hfl, hw, congrArg QEntry.info hcell⟩
    | orig id len fl w i =>
      have hcl : d.phase.clearing = false := by rw [hp]; rfl
      have howns : d.phase.owns = true := by rw [hp]; rfl
      simp only [QueueState.drainStep, hd, hp]
      obtain ⟨p, hslot, hloc⟩ := h.drain d hd howns
      rw [hp] at hloc
      obtain ⟨rfl, rfl, rfl, rfl, rfl⟩ := hloc
      rw [cell_of_slot h hd hcl hslot, takenOf_entry p]
      exact ⟨r, inv_take h hd hcl rfl hslot trivial⟩
    | freeId =>
      have hcl : d.phase.clearing = true := by rw [hp]; rfl
      simp only [QueueState.drainStep, hd, hp]
      exact ⟨r, inv_clear h hd hcl rfl (fun _ => trivial) rfl hnarrow⟩
    | freeLens =>
      have hcl : d.phase.clearing = true := by rw [hp]; rfl
      simp only [QueueState.drainStep, hd, hp]
      exact ⟨r, inv_clear h hd hcl rfl (fun _ => trivial) rfl hnarrow⟩
    | freePkt =>
      have hcl : d.phase.clearing = true := by rw [hp]; rfl
      simp only [QueueState.drainStep, hd, hp]
      have hzero : 0 < 2 ^ 16 := by decide
      exact ⟨r, inv_clear h hd hcl rfl (fun _ => trivial) rfl hzero⟩
    | freeInfo =>
      have hcl : d.phase.clearing = true := by rw [hp]; rfl
      simp only [QueueState.drainStep, hd, hp]
      exact ⟨r, inv_clear h hd hcl rfl (fun _ => trivial) rfl hnarrow⟩
    | freeFlags =>
      have hcl : d.phase.clearing = true := by rw [hp]; rfl
      simp only [QueueState.drainStep, hd, hp]
      exact ⟨_, inv_pop h hd hcl rfl rfl (by simp) rfl hnarrow⟩
    | ridx =>
      have hcl : d.phase.clearing = false := by rw [hp]; rfl
      simp only [QueueState.drainStep, hd, hp]
      exact ⟨r, inv_leave h hd hcl rfl⟩

/-! ## Runs -/

theorem fifoInv_init (h : (queueSystem b).init s) : FifoInv s FlagRing.empty := by
  obtain rfl := h
  have hpos : 0 < eagleTxqEntries := by decide
  refine ⟨FlagRing.ok_empty hpos, ?_, ?_, ?_, rfl, rfl, ?_, ?_, ?_, [], ?_, rfl⟩
  · intro i
    show decide ((0 : ℕ) &&& 1 ≠ 0) = false
    decide
  · intro i p hslot
    cases hslot
  · intro i
    show 0 < 2 ^ 16
    decide
  · intro ph p hp
    cases hp
  · intro d hd
    cases hd
  · intro d hd
    cases hd
  · rw [FlagRing.contents_empty hpos]
    rfl

/-- A drain call starts at the read index. -/
theorem inv_call (h : FifoInv s r) (hidle : s.drain = none) :
    FifoInv { s with drain := some (drainStart b s.ridx) } r := by
  have hstart : (drainStart b s.ridx).idx = s.ridx ∧
      (drainStart b s.ridx).phase.clearing = false ∧
      (drainStart b s.ridx).phase.owns = false := by
    unfold drainStart
    split <;> exact ⟨rfl, rfl, rfl⟩
  obtain ⟨hidx, hcl, howns⟩ := hstart
  have hold : s.clearing = false := by simp only [QueueState.clearing, hidle]
  have hview : s.ridxView = s.ridx := by simp only [QueueState.ridxView, hidle]
  refine ⟨h.ok, h.busy, ?_, h.narrow, h.widx, ?_, h.put, ?_, ?_, ?_⟩
  · intro i p hslot _
    apply h.whole i p hslot
    intro hc
    rw [hold] at hc
    cases hc
  · show r.ridx = (drainStart b s.ridx).idx
    rw [h.ridx, hview, hidx]
  · intro d hd how
    obtain rfl := Option.some.inj hd
    rw [howns] at how
    cases how
  · intro d hd _
    obtain rfl := Option.some.inj hd
    exact hidx
  · obtain ⟨done, hacc, htaken⟩ := h.ledger
    refine ⟨done, hacc, ?_⟩
    rw [hold] at htaken
    show s.taken = (done ++ if (drainStart b s.ridx).phase.clearing = true then _ else []).map _
    rw [hcl]
    exact htaken

theorem fifoInv_step {s' : QueueState} {a : QueueAction} (h : FifoInv s r)
    (hstep : (queueSystem b).step s a s') : ∃ r', FifoInv s' r' := by
  cases a with
  | enqueue p =>
    obtain ⟨hidle, -, rfl⟩ := hstep
    refine ⟨r, inv_putTo h ?_ ?_⟩
    · rw [widxView_eq, widxView_eq]
      · intro q hq
        rw [hidle] at hq
        cases hq
      · intro q hq
        cases hq
    · intro ph q hq howns
      obtain ⟨rfl, -⟩ := Prod.mk.inj (Option.some.inj hq)
      cases howns
  | put =>
    obtain rfl : s' = s.putStep := hstep
    exact inv_putStep h
  | call =>
    obtain ⟨hidle, rfl⟩ := hstep
    exact ⟨r, inv_call h hidle⟩
  | drain full =>
    obtain rfl : s' = s.drainStep full := hstep
    exact inv_drainStep h

theorem fifoInv_of_reachable (h : (queueSystem b).Reachable s) : ∃ r, FifoInv s r := by
  apply h.invariant
  · intro s h0
    exact ⟨_, fifoInv_init h0⟩
  · intro s a s' hinv hs
    obtain ⟨r, hr⟩ := hinv
    exact fifoInv_step hr hs

/-- What is left to take lies in the ring from the next entry on. -/
theorem FifoInv.fifo (h : FifoInv s r) : QueueFifo s := by
  obtain ⟨done, hacc, htaken⟩ := h.ledger
  have hle : (r.contents eagleTxqEntries).length ≤ eagleTxqEntries := FlagRing.Holds.length_le h.ok
  have hlt : r.ridx < eagleTxqEntries := FlagRing.Holds.ridx_lt h.ok
  by_cases hcl : s.clearing = true
  · -- the first packet is taken, its entry not yet free
    obtain ⟨p, hcontents⟩ := contents_of_clearing h hcl
    set q := (r.pop eagleTxqEntries).contents eagleTxqEntries with hq
    rw [if_pos hcl, hcontents, List.take_succ_cons, List.take_zero] at htaken
    rw [hcontents, List.length_cons] at hle
    have hhead : s.head = txqNext r.ridx := by
      rw [h.ridx]
      unfold QueueState.clearing at hcl
      unfold QueueState.head QueueState.ridxView
      cases hd : s.drain with
      | none =>
        rw [hd] at hcl
        cases hcl
      | some d =>
        rw [hd] at hcl
        exact if_pos hcl
    refine ⟨done ++ [p], q, ?_, htaken, by omega, ?_⟩
    · rw [hacc, hcontents, List.append_assoc, List.singleton_append]
    · intro j hj
      have hslot := h.ok.slot_eq (j := j + 1) (by omega)
      rw [hcontents, List.getElem?_cons_succ, List.getElem?_eq_getElem hj] at hslot
      rw [hhead, txqNext_eq, Circular.next_pred_eq_mod hlt, Circular.mod_add_mod_eq,
        Nat.add_comm 1 j]
      apply h.whole _ _ hslot
      intro _ heq
      rw [← h.ridx] at heq
      have hzero : (r.ridx + (j + 1)) % eagleTxqEntries = (r.ridx + 0) % eagleTxqEntries := by
        rw [heq, Nat.add_zero, Nat.mod_eq_of_lt hlt]
      have := Circular.offset_injective (by omega) (by omega) hzero
      omega
  · -- nothing half taken: the ring starts at the read index
    rw [if_neg hcl, List.append_nil] at htaken
    have hhead : s.head = r.ridx := by
      rw [h.ridx]
      unfold QueueState.clearing at hcl
      unfold QueueState.head QueueState.ridxView
      cases hd : s.drain with
      | none => rfl
      | some d =>
        rw [hd] at hcl
        exact if_neg hcl
    refine ⟨done, r.contents eagleTxqEntries, hacc, htaken, hle, ?_⟩
    intro j hj
    have hslot := h.ok.slot_eq (j := j) (by omega)
    rw [List.getElem?_eq_getElem hj] at hslot
    rw [hhead]
    apply h.whole _ _ hslot
    intro hc
    exact absurd hc hcl

theorem queueRefusal (s : QueueState) : QueueRefusal s := by
  intro p hp hused
  simp only [QueueState.putStep, hp]
  rw [if_pos hused]

theorem reachable_put (h : (queueSystem b).Reachable s) : (queueSystem b).Reachable s.putStep :=
  h.step .put rfl

theorem reachable_call (h : (queueSystem b).Reachable s) (hidle : s.drain = none) :
    (queueSystem b).Reachable { s with drain := some (drainStart b s.ridx) } :=
  h.step .call ⟨hidle, rfl⟩

/-- The eight accesses of an enqueue that meets a free entry. -/
theorem put_frame (hfree : (s.cell s.widx).busy = false) :
    QueueState.putStep (QueueState.putStep (QueueState.putStep (QueueState.putStep
      (QueueState.putStep (QueueState.putStep (QueueState.putStep (QueueState.putStep
        { s with put := some (.test, p) }))))))) =
    { s with cell := Function.update s.cell s.widx p.entry
             widx := txqNext s.widx
             put := none
             accepted := s.accepted ++ [p] } := by
  simp [QueueState.putStep, QueueState.store, hfree, RxPacket.entry]

end ClankerNPU.EagleRx
