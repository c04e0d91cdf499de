import Mathlib.Data.List.Basic
import Mathlib.Tactic.IntervalCases
import ClankerNPU.Lib.Bytes
import ClankerNPU.Lib.FlagRing
import ClankerNPU.Words

/-! # Frames spread over several rx descriptors

    `kite_rx_multi` copies a short one into one buffer and queues a longer
    one segment by segment, each with its number, the number of segments
    and a last flag in one byte. `rxnode_drain` reads the byte back and
    hands the segments to the host.

    A slot of a node ring is `none` while bit 0 of its flag byte is clear.
    Counters and statistics are left out. -/

namespace ClankerNPU.Kite

open Memory

/-- A segment queued for the host. -/
structure RxNode where
  bufId : ℕ
  pktLen : ℕ
  origLen : ℕ
  flags : BitVec 8
  deriving DecidableEq, Repr

/-- A whole frame queued for the host. -/
structure PiNode where
  bufId : ℕ
  wcid : ℤ
  pktLen : ℕ
  origLen : ℕ
  flags : BitVec 8
  amsdu : ℕ
  alone : Bool

/-- An rx descriptor: the buffer's address, and the word with the length,
    bit 30 for the last one of a frame and bit 31 once it is filled. -/
structure RxDesc where
  addr : ℕ
  w1 : BitVec 32

/-- A segment as the host gets it. -/
structure SegOut where
  addr : ℕ
  pktLen : ℕ
  band : ℕ
  fwdType : ℕ
  origLen : ℕ
  isLast : Bool
  deriving DecidableEq, Repr

/-- The rx ring, the buffer ids and the node rings of one band, and the
    host. -/
structure SegRx where
  desc : ℕ → RxDesc
  /-- `rxd_5g_bufid_table`, `rxd_2g_bufid_base` -/
  tbl : ℕ → ℤ
  cpuIdx : ℕ
  mem : Memory
  /-- `wifi_pkt_buf_addr` -/
  pktBuf : ℕ
  rxnodes : FlagRing RxNode
  pinodes : FlagRing PiNode
  /-- `wifi_retry_limit` -/
  retryLimit : ℕ
  /-- what call number `i` of `buf_id_alloc_hw` returns -/
  alloc : ℕ → Option ℕ
  allocs : ℕ
  /-- the ids given back -/
  freed : List ℕ
  /-- whether call number `i` of `host_ring_submit` finds room -/
  hostRoom : ℕ → Bool
  submits : ℕ
  handed : List SegOut

def kiteRxRingLast : ℕ := 1535

def kiteRxBufLen : ℕ := 0xDAC

def rxnodeRingSize : ℕ := 128

/-- `PINODE_RING_SIZE_5G` and `PINODE_RING_SIZE_2G` -/
def pinodeRingSize (band : ℕ) : ℕ := if band ≠ 0 then 512 else 256

/-- The next descriptor of the rx ring. -/
def rxNext (idx : ℕ) : ℕ := if idx ≥ kiteRxRingLast then 0 else idx + 1

/-- `wifi_pkt_va` -/
def SegRx.pktVa (t : SegRx) (bufId : ℕ) : ℕ :=
  u32 (((t.pktBuf &&& 0x3FFFFFFF) ||| 0x40000000) + bufId <<< 12 : ℕ)

/-- `wifi_pkt_dma` -/
def pktDma (pktBuf bufId : ℕ) : ℕ := (u32 (bufId <<< 12 + pktBuf : ℕ) &&& 0x3FFFFFFF) ||| 0x80000000

/-! ## The rx side -/

/-- `pkt_forward`: 1 when the ring is full -/
def pktForward (t : SegRx) (bufId pktLen : ℕ) (wcid : ℤ) (amsdu band : ℕ) (fwdType : BitVec 8)
    (origLen : ℕ) (classifyResult : ℤ) : ℕ × SegRx :=
  if origLen ≠ pktLen then
    match t.rxnodes.put rxnodeRingSize ⟨bufId, u16 pktLen, u16 origLen, fwdType ||| 1#8⟩ with
    | none => (1, t)
    | some r => (0, { t with rxnodes := r })
  else
    match t.pinodes.put (pinodeRingSize band)
        ⟨bufId, wcid, u16 pktLen, u16 origLen, fwdType ||| 1#8, amsdu, classifyResult = -2⟩ with
    | none => (1, t)
    | some r => (0, { t with pinodes := r })

/-- `retry` more calls of `pkt_forward`, until one is taken. -/
def pktForwardRetry (bufId pktLen band : ℕ) (fwdType : BitVec 8) (origLen : ℕ) :
    ℕ → SegRx → ℕ × SegRx
  | 0, t => (1, t)
  | retry + 1, t =>
    let r := pktForward t bufId pktLen 0 0 band fwdType origLen 0
    if r.1 = 0 then r else pktForwardRetry bufId pktLen band fwdType origLen retry r.2

/-- The length word of a descriptor given back to the chip. -/
def RxDesc.recycled (d : RxDesc) : RxDesc :=
  { d with w1 := (((d.w1 >>> 16) &&& 0x4000#32) ||| 0xDAC#32) <<< 16 ||| (d.w1 &&& 0xFFFF#32) }

/-- The length in a descriptor. -/
def RxDesc.frag (d : RxDesc) : ℕ := ((d.w1 >>> 16) &&& 0x3FFF#32).toNat

/-- A descriptor gets a fresh buffer. -/
def SegRx.refill (t : SegRx) (idx id : ℕ) : SegRx :=
  { t with
    tbl := Function.update t.tbl idx (s16 id)
    desc := Function.update t.desc idx { (t.desc idx).recycled with addr := t.pktVa id } }

/-- `kite_rx_skip` -/
def kiteRxSkip : ℕ → ℕ → SegRx → ℕ × SegRx
  | 0, idx, t => (idx, t)
  | n + 1, idx, t =>
    kiteRxSkip n (rxNext idx)
      { t with desc := Function.update t.desc idx (t.desc idx).recycled }

/-- `buf_id_alloc_hw` -/
def bufIdAllocHw (t : SegRx) : Option ℕ × SegRx := (t.alloc t.allocs, { t with allocs := t.allocs + 1 })

/-- The flag byte of a segment: bit 1 the last one, 4:2 its number, 7:5 the
    number of segments. -/
def segFlags (w1 : BitVec 32) (seg : BitVec 8) (count : ℕ) : BitVec 8 :=
  ((w1 >>> 29) &&& 2#32).setWidth 8 ||| (seg <<< 2) |||
    (((BitVec.ofNat 8 count &&& 7#8) <<< 5) &&& 0xFE#8)

/-- The segments of a long frame, `n` left and `seg` done; the next index
    comes back. -/
def kiteRxSegments (band len count : ℕ) : ℕ → ℕ → BitVec 8 → SegRx → ℕ × SegRx
  | 0, idx, _, t => (idx, t)
  | n + 1, idx, seg, t =>
    match bufIdAllocHw t with
    | (none, t) => kiteRxSkip (n + 1) idx t
    | (some id, t) =>
      let seg := seg + 1#8
      let d := t.desc idx
      let flags := segFlags d.w1 seg count
      let bufId := u32 (t.tbl idx)
      let r := pktForward t bufId (len % 2 ^ 16) 0 0 band flags d.frag 0
      let r :=
        if r.1 ≠ 0 then
          pktForwardRetry bufId (len % 2 ^ 16) band flags d.frag (t.retryLimit % 256) r.2
        else r
      if r.1 ≠ 0 then kiteRxSkip (n + 1) idx r.2
      else
        kiteRxSegments band len count n (rxNext idx) seg (r.2.refill idx id)

/-- The pieces of a short frame put together in one buffer at `dst`. -/
def kiteRxCopy (dst : ℕ) : ℕ → ℕ → ℕ → SegRx → ℕ × SegRx
  | 0, idx, _, t => (idx, t)
  | n + 1, idx, off, t =>
    let d := t.desc idx
    kiteRxCopy dst n (rxNext idx) (off + d.frag)
      { t with
        mem := t.mem.copy (dst + off) (t.pktVa (u32 (t.tbl idx))) d.frag
        desc := Function.update t.desc idx d.recycled }

/-- `kite_rx_multi` -/
def kiteRxMulti (t : SegRx) (band idx len count : ℕ) : ℕ × SegRx :=
  let n := count % 256
  let r :=
    if len ≥ 0x4000 then kiteRxSkip n idx t
    else if len > kiteRxBufLen then kiteRxSegments band len count n idx 0#8 t
    else
      match bufIdAllocHw t with
      | (none, t) => kiteRxSkip n idx t
      | (some id, t) =>
        let r := kiteRxCopy (t.pktVa id) n idx 0 t
        let f := pktForward r.2 id (len % 2 ^ 16) 0 0 band 2#8 (len % 2 ^ 16) 0
        (r.1, if f.1 ≠ 0 then { f.2 with freed := f.2.freed ++ [id % 2 ^ 16] } else f.2)
  (r.1, { r.2 with cpuIdx := r.1 })

/-! ## The drain -/

/-- `rxnode_submit` -/
def rxnodeSubmit (t : SegRx) (band : ℕ) (node : RxNode) : ℤ × SegRx :=
  let seg : SegOut := ⟨pktDma t.pktBuf node.bufId, node.pktLen, band, (node.flags >>> 2).toNat,
    node.origLen, node.flags &&& 2#8 ≠ 0#8⟩
  if t.hostRoom t.submits then
    (0, { t with submits := t.submits + 1, handed := t.handed ++ [seg] })
  else (-1, { t with submits := t.submits + 1 })

/-- `retry` more calls of `rxnode_submit`, until one is taken. -/
def rxnodeSubmitRetry (band : ℕ) (node : RxNode) : ℕ → SegRx → SegRx
  | 0, t => t
  | retry + 1, t =>
    let r := rxnodeSubmit t band node
    if r.1 = 0 then r.2 else rxnodeSubmitRetry band node retry r.2

/-- A cleared node. -/
def RxNode.clear : RxNode := ⟨0xFFFFFFFF, 0, 0, 0#8⟩

/-- The next slot of the segment ring. -/
def rxnodeNext (i : ℕ) : ℕ := if i + 1 ≠ rxnodeRingSize then i + 1 else 0

theorem flags_total_lt (flags : BitVec 8) : (flags >>> 5).toNat < 8 := by
  rw [BitVec.toNat_ushiftRight, Nat.shiftRight_eq_div_pow]
  have := flags.isLt
  omega

/-- How many segments make the frame at the read index, and whether it is
    complete. An empty slot is looked at again until the retries are used
    up. -/
def rxnodeScan (t : SegRx) (scan tries count : ℕ) : ℕ × Bool :=
  match t.rxnodes.slot scan with
  | none => if tries + 1 > t.retryLimit then (count, false) else rxnodeScan t scan (tries + 1) count
  | some node =>
    let total := (node.flags >>> 5).toNat
    let seg := ((node.flags >>> 2) &&& 7#8).toNat
    let next := (count + 1) % 2 ^ 16
    if node.flags &&& 2#8 ≠ 0#8 then (next, decide (total = next ∧ seg = next))
    else if next ≥ total then (count, false)
    else if tries > t.retryLimit then (next, false)
    else rxnodeScan t (rxnodeNext scan) tries next
termination_by (t.retryLimit + 1 - tries) + (8 - (count + 1) % 2 ^ 16)
decreasing_by
  · omega
  · have htotal : (node.flags >>> 5).toNat < 8 := flags_total_lt node.flags
    omega

/-- Hand over or drop `count` segments from the read index on. -/
def rxnodeProcess (band : ℕ) (submit : Bool) : ℕ → SegRx → SegRx
  | 0, t => t
  | count + 1, t =>
    let node := (t.rxnodes.slot t.rxnodes.ridx).getD .clear
    let t :=
      if submit then
        let r := rxnodeSubmit t band node
        if r.1 ≠ 0 then rxnodeSubmitRetry band node t.retryLimit r.2 else r.2
      else t
    rxnodeProcess band submit count
      { t with rxnodes := t.rxnodes.pop rxnodeRingSize, freed := t.freed ++ [node.bufId] }

/-- `rxnode_drain` -/
def rxnodeDrain (t : SegRx) (band : ℕ) : SegRx :=
  match t.rxnodes.slot t.rxnodes.ridx with
  | none => t
  | some _ =>
    let r := rxnodeScan t t.rxnodes.ridx 0 0
    rxnodeProcess band r.2 r.1 t

/-! ## The flag byte -/

/-- Bit 30 of the length word, the last descriptor of a frame. -/
def RxDesc.last (d : RxDesc) : Bool := d.w1.getLsbD 30

theorem lastBit_eq (w1 : BitVec 32) :
    ((w1 >>> 29) &&& 2#32).setWidth 8 = if w1.getLsbD 30 then 2#8 else 0#8 := by
  apply BitVec.eq_of_getLsbD_eq
  intro i hi
  cases h : w1.getLsbD 30 <;> rw [BitVec.getLsbD_eq_getElem (by decide)] at h <;>
    interval_cases i <;> simp [h]

theorem countBits_eq (count : ℕ) : BitVec.ofNat 8 count &&& 7#8 = BitVec.ofNat 8 (count % 8) := by
  apply BitVec.eq_of_toNat_eq
  rw [BitVec.toNat_and, BitVec.toNat_ofNat, BitVec.toNat_ofNat, BitVec.toNat_ofNat]
  show count % 256 &&& 2 ^ 3 - 1 = _
  rw [Nat.and_two_pow_sub_one_eq_mod]
  omega

/-- The fields of the byte for the first seven segments. -/
theorem flagByte_fields : ∀ last : Bool, ∀ i < 8, ∀ c < 8,
    let flags := ((if last then 2#8 else 0#8) ||| (BitVec.ofNat 8 i <<< 2) |||
      ((BitVec.ofNat 8 c <<< 5) &&& 0xFE#8)) ||| 1#8
    (flags >>> 5).toNat = c ∧ ((flags >>> 2) &&& 7#8).toNat = i ∧
      (flags >>> 2).toNat = i + 8 * c ∧ (flags &&& 2#8 ≠ 0#8 ↔ last = true) := by
  decide +kernel

theorem segFlags_fields (w1 : BitVec 32) {i : ℕ} (hi : i < 8) (count : ℕ) :
    let flags := segFlags w1 (BitVec.ofNat 8 i) count ||| 1#8
    (flags >>> 5).toNat = count % 8 ∧ ((flags >>> 2) &&& 7#8).toNat = i ∧
      (flags >>> 2).toNat = i + 8 * (count % 8) ∧
      (flags &&& 2#8 ≠ 0#8 ↔ w1.getLsbD 30 = true) := by
  unfold segFlags
  rw [lastBit_eq, countBits_eq]
  exact flagByte_fields (w1.getLsbD 30) i hi (count % 8) (Nat.mod_lt _ (by decide))

/-! ## What is queued -/

/-- The descriptors of a frame and the buffers behind them. -/
def SegRx.pieces (t : SegRx) (idx n : ℕ) : List (RxDesc × ℤ) :=
  Circular.window (fun i => (t.desc i, t.tbl i)) (kiteRxRingLast + 1) idx n

/-- Segment `i + 1` of `count`, `seg` before it. -/
def segNode (len count : ℕ) (seg : BitVec 8) (i : ℕ) (p : RxDesc × ℤ) : RxNode :=
  ⟨u32 p.2, u16 len, u16 p.1.frag, segFlags p.1.w1 (seg + BitVec.ofNat 8 (i + 1)) count ||| 1#8⟩

theorem rxNext_eq {idx : ℕ} (h : idx ≤ kiteRxRingLast) :
    rxNext idx = (idx + 1) % (kiteRxRingLast + 1) := by
  unfold rxNext
  unfold kiteRxRingLast at *
  split_ifs <;> omega

theorem rxNext_le {idx : ℕ} (h : idx ≤ kiteRxRingLast) : rxNext idx ≤ kiteRxRingLast := by
  rw [rxNext_eq h]
  exact Nat.le_of_lt_succ (Nat.mod_lt _ (Nat.succ_pos _))

theorem pieces_succ {t : SegRx} {idx : ℕ} (h : idx ≤ kiteRxRingLast) (n : ℕ) :
    t.pieces idx (n + 1) = (t.desc idx, t.tbl idx) :: t.pieces (rxNext idx) n := by
  unfold SegRx.pieces
  rw [Nat.add_comm n 1, Circular.window_add, Circular.window_one _ (Nat.lt_succ_of_le h),
    rxNext_eq h]
  rfl

/-- A refill leaves the descriptors behind it alone. -/
theorem pieces_refill {t : SegRx} {idx n : ℕ} (h : idx ≤ kiteRxRingLast)
    (hn : n ≤ kiteRxRingLast) (id : ℕ) :
    (t.refill idx id).pieces (rxNext idx) n = t.pieces (rxNext idx) n := by
  refine Circular.window_congr fun j hj => ?_
  have hne : (rxNext idx + j) % (kiteRxRingLast + 1) ≠ idx := by
    rw [rxNext_eq h, Circular.mod_add_mod_eq]
    unfold kiteRxRingLast at *
    omega
  unfold SegRx.refill
  simp only
  rw [Function.update_of_ne hne, Function.update_of_ne hne]

/-- A piece of a frame finds room in the segment ring. -/
theorem pktForward_segment {t : SegRx} {q : List RxNode} {pktLen origLen : ℕ}
    (bufId amsdu band : ℕ) (wcid result : ℤ) (fwdType : BitVec 8)
    (hring : t.rxnodes.Holds rxnodeRingSize q) (hroom : q.length < rxnodeRingSize)
    (hpart : origLen ≠ pktLen) :
    ∃ r, pktForward t bufId pktLen wcid amsdu band fwdType origLen result =
        (0, { t with rxnodes := r }) ∧
      r.Holds rxnodeRingSize (q ++ [⟨bufId, u16 pktLen, u16 origLen, fwdType ||| 1#8⟩]) := by
  unfold pktForward
  rw [if_pos hpart]
  cases hput : t.rxnodes.put rxnodeRingSize ⟨bufId, u16 pktLen, u16 origLen, fwdType ||| 1#8⟩ with
  | none =>
    have hfull := hring.put_eq_none_iff.mp hput
    omega
  | some r => exact ⟨r, rfl, hring.put hput⟩

/-- A piece that is not all of the frame goes to the end of the queue. -/
theorem kiteRxSegments_part {t : SegRx} {q : List RxNode} {len idx id : ℕ} (band count n : ℕ)
    (seg : BitVec 8) (hring : t.rxnodes.Holds rxnodeRingSize q) (hroom : q.length < rxnodeRingSize)
    (hid : t.alloc t.allocs = some id) (hlen : len < 2 ^ 16) (hpart : (t.desc idx).frag ≠ len) :
    ∃ r, kiteRxSegments band len count (n + 1) idx seg t =
        kiteRxSegments band len count n (rxNext idx) (seg + 1#8)
          (SegRx.refill { t with allocs := t.allocs + 1, rxnodes := r } idx id) ∧
      r.Holds rxnodeRingSize (q ++ [segNode len count seg 0 (t.desc idx, t.tbl idx)]) := by
  rw [← Nat.mod_eq_of_lt hlen] at hpart
  obtain ⟨r, hforward, hholds⟩ := pktForward_segment (t := { t with allocs := t.allocs + 1 })
    (u32 (t.tbl idx)) 0 band 0 0 (segFlags (t.desc idx).w1 (seg + 1#8) count) hring hroom hpart
  refine ⟨r, ?_, ?_⟩
  · rw [kiteRxSegments, bufIdAllocHw, hid]
    simp only [hforward]
    rfl
  · rw [Nat.mod_eq_of_lt hlen] at hholds
    exact hholds

theorem segNode_succ (len count : ℕ) (seg : BitVec 8) (i : ℕ) :
    segNode len count seg (i + 1) = segNode len count (seg + 1#8) i := by
  unfold segNode
  have hseg : seg + BitVec.ofNat 8 (i + 1 + 1) = seg + 1#8 + BitVec.ofNat 8 (i + 1) := by
    rw [BitVec.add_assoc, BitVec.ofNat_add (i + 1) 1, BitVec.add_comm 1#8]
  rw [hseg]

/-- What is left for the pieces behind the first. -/
theorem ids_later {t : SegRx} {n : ℕ} (hids : ∀ i < n + 1, (t.alloc (t.allocs + i)).isSome) :
    ∀ i < n, (t.alloc (t.allocs + 1 + i)).isSome := by
  intro i hi
  have hid := hids (i + 1) (by omega)
  rwa [Nat.add_comm i 1, ← Nat.add_assoc] at hid

/-- The segment ring is no longer than the descriptors'. -/
theorem le_ring_of_room {m n : ℕ} (hroom : m + (n + 1) ≤ rxnodeRingSize) : n ≤ kiteRxRingLast := by
  unfold rxnodeRingSize at hroom
  unfold kiteRxRingLast
  omega

/-- The segment ring holds a queue, and nothing else the drain looks at has
    changed. -/
structure Queued (t t' : SegRx) (q : List RxNode) : Prop where
  ring : t'.rxnodes.Holds rxnodeRingSize q
  handed : t'.handed = t.handed
  freed : t'.freed = t.freed
  submits : t'.submits = t.submits
  hostRoom : t'.hostRoom = t.hostRoom
  retryLimit : t'.retryLimit = t.retryLimit
  pktBuf : t'.pktBuf = t.pktBuf

/-- With ids and room, a frame none of whose pieces is all of it is queued
    piece by piece. -/
theorem kiteRxSegments_queued {len : ℕ} {q : List RxNode} {n idx : ℕ} {t : SegRx}
    (band count : ℕ) (seg : BitVec 8) (hring : t.rxnodes.Holds rxnodeRingSize q)
    (hroom : q.length + n ≤ rxnodeRingSize)
    (hidx : idx ≤ kiteRxRingLast) (hids : ∀ i < n, (t.alloc (t.allocs + i)).isSome)
    (hlen : len < 2 ^ 16) (hpart : ∀ p ∈ t.pieces idx n, p.1.frag ≠ len) :
    Queued t (kiteRxSegments band len count n idx seg t).2
      (q ++ (t.pieces idx n).mapIdx (segNode len count seg)) := by
  induction n generalizing q idx seg t with
  | zero =>
    refine ⟨?_, rfl, rfl, rfl, rfl, rfl, rfl⟩
    rw [SegRx.pieces, Circular.window_zero, List.mapIdx_nil, List.append_nil]
    exact hring
  | succ n ih =>
    rw [pieces_succ hidx] at hpart ⊢
    obtain ⟨id, hid⟩ := Option.isSome_iff_exists.mp (hids 0 (Nat.zero_lt_succ n))
    rw [Nat.add_zero] at hid
    obtain ⟨ring, hstep, hholds⟩ := kiteRxSegments_part band count n seg hring (by omega) hid hlen
      (hpart (t.desc idx, t.tbl idx) List.mem_cons_self)
    set t' : SegRx := { t with allocs := t.allocs + 1, rxnodes := ring }
    have hsame : (t'.refill idx id).pieces (rxNext idx) n = t.pieces (rxNext idx) n :=
      pieces_refill hidx (le_ring_of_room hroom) id
    have hrest := ih (t := t'.refill idx id) (seg + 1#8) hholds ?_ (rxNext_le hidx)
      (ids_later hids) ?_
    · rw [hsame, List.append_assoc] at hrest
      rw [hstep, List.mapIdx_cons]
      simp only [segNode_succ]
      exact ⟨hrest.ring, hrest.handed, hrest.freed, hrest.submits, hrest.hostRoom,
        hrest.retryLimit, hrest.pktBuf⟩
    · rw [List.length_append, List.length_singleton]
      omega
    · rw [hsame]
      exact fun p hp => hpart p (List.mem_cons_of_mem _ hp)

/-! ## A piece that is the whole frame -/

/-- A piece as long as the frame goes to the other ring, or nowhere. -/
theorem pktForward_whole (t : SegRx) (bufId pktLen amsdu band : ℕ) (wcid result : ℤ)
    (fwdType : BitVec 8) :
    ∃ c p, pktForward t bufId pktLen wcid amsdu band fwdType pktLen result =
      (c, { t with pinodes := p }) := by
  unfold pktForward
  rw [if_neg (not_not.mpr rfl)]
  split
  · exact ⟨1, t.pinodes, rfl⟩
  · next p _ => exact ⟨0, p, rfl⟩

theorem pktForwardRetry_whole (bufId pktLen band : ℕ) (fwdType : BitVec 8) (retry : ℕ)
    (t : SegRx) :
    ∃ c p, pktForwardRetry bufId pktLen band fwdType pktLen retry t =
      (c, { t with pinodes := p }) := by
  induction retry generalizing t with
  | zero => exact ⟨1, t.pinodes, rfl⟩
  | succ retry ih =>
    unfold pktForwardRetry
    simp only
    obtain ⟨c, p, hforward⟩ := pktForward_whole t bufId pktLen 0 band 0 0 fwdType
    rw [hforward]
    split_ifs
    · exact ⟨c, p, rfl⟩
    · obtain ⟨c', p', hretry⟩ := ih { t with pinodes := p }
      exact ⟨c', p', hretry⟩

theorem kiteRxSegments_whole {t : SegRx} {len idx id : ℕ} (band count n : ℕ) (seg : BitVec 8)
    (hid : t.alloc t.allocs = some id) (hwhole : (t.desc idx).frag = len % 2 ^ 16) :
    ∃ p, kiteRxSegments band len count (n + 1) idx seg t =
        kiteRxSkip (n + 1) idx { t with allocs := t.allocs + 1, pinodes := p } ∨
      kiteRxSegments band len count (n + 1) idx seg t =
        kiteRxSegments band len count n (rxNext idx) (seg + 1#8)
          (SegRx.refill { t with allocs := t.allocs + 1, pinodes := p } idx id) := by
  rw [kiteRxSegments, bufIdAllocHw, hid]
  simp only [hwhole]
  obtain ⟨c, p, hforward⟩ := pktForward_whole { t with allocs := t.allocs + 1 } (u32 (t.tbl idx))
    (len % 2 ^ 16) 0 band 0 0 (segFlags (t.desc idx).w1 (seg + 1#8) count)
  simp only [hforward]
  by_cases hc : c ≠ 0
  · simp only [if_pos hc]
    obtain ⟨c', p', hretry⟩ := pktForwardRetry_whole (u32 (t.tbl idx)) (len % 2 ^ 16) band
      (segFlags (t.desc idx).w1 (seg + 1#8) count) (t.retryLimit % 256)
      { t with allocs := t.allocs + 1, pinodes := p }
    rw [hretry]
    refine ⟨p', ?_⟩
    split_ifs
    · exact .inl rfl
    · exact .inr rfl
  · simp only [if_neg hc]
    exact ⟨p, .inr rfl⟩

theorem kiteRxSkip_keeps (n idx : ℕ) (t : SegRx) :
    (kiteRxSkip n idx t).2.rxnodes = t.rxnodes ∧ (kiteRxSkip n idx t).2.handed = t.handed := by
  induction n generalizing idx t with
  | zero => exact ⟨rfl, rfl⟩
  | succ n ih => exact ih (rxNext idx) _

/-- The segment ring holds `m` segments at the most, and nothing is handed
    over. -/
def AtMost (t t' : SegRx) (m : ℕ) : Prop :=
  t'.handed = t.handed ∧ ∃ q, t'.rxnodes.Holds rxnodeRingSize q ∧ q.length ≤ m

/-- One segment at the most is queued for each piece, and none for one that
    is the whole frame. -/
theorem kiteRxSegments_atMost {len : ℕ} {q : List RxNode} {n idx : ℕ} {t : SegRx}
    (band count : ℕ) (seg : BitVec 8) (hring : t.rxnodes.Holds rxnodeRingSize q)
    (hroom : q.length + n ≤ rxnodeRingSize)
    (hidx : idx ≤ kiteRxRingLast) (hids : ∀ i < n, (t.alloc (t.allocs + i)).isSome)
    (hlen : len < 2 ^ 16) :
    AtMost t (kiteRxSegments band len count n idx seg t).2
      (q.length + (t.pieces idx n).countP fun p => p.1.frag ≠ len) := by
  induction n generalizing q idx seg t with
  | zero => exact ⟨rfl, q, hring, Nat.le_add_right ..⟩
  | succ n ih =>
    obtain ⟨id, hid⟩ := Option.isSome_iff_exists.mp (hids 0 (Nat.zero_lt_succ n))
    rw [Nat.add_zero] at hid
    have hn := le_ring_of_room hroom
    rw [pieces_succ hidx]
    by_cases hwhole : (t.desc idx).frag = len
    · rw [List.countP_cons_of_neg (by simpa using hwhole)]
      obtain ⟨p, hskip | hrest⟩ := kiteRxSegments_whole band count n seg hid
        (hwhole.trans (Nat.mod_eq_of_lt hlen).symm)
      · obtain ⟨hnodes, hhanded⟩ := kiteRxSkip_keeps (n + 1) idx
          { t with allocs := t.allocs + 1, pinodes := p }
        rw [hskip]
        exact ⟨hhanded, q, by rw [hnodes]; exact hring, Nat.le_add_right ..⟩
      · have hdone := ih (q := q)
          (t := SegRx.refill { t with allocs := t.allocs + 1, pinodes := p } idx id) (seg + 1#8)
          hring (by omega) (rxNext_le hidx) (ids_later hids)
        rw [pieces_refill hidx hn id] at hdone
        rw [hrest]
        exact hdone
    · rw [List.countP_cons_of_pos (by simpa using hwhole)]
      obtain ⟨ring, hstep, hholds⟩ := kiteRxSegments_part band count n seg hring (by omega) hid
        hlen hwhole
      have hdone := ih
        (t := SegRx.refill { t with allocs := t.allocs + 1, rxnodes := ring } idx id) (seg + 1#8)
        hholds (by rw [List.length_append, List.length_singleton]; omega) (rxNext_le hidx)
        (ids_later hids)
      rw [pieces_refill hidx hn id, List.length_append, List.length_singleton, Nat.add_assoc,
        Nat.add_comm 1] at hdone
      rw [hstep]
      exact hdone

end ClankerNPU.Kite
