import ClankerNPU.Config
import ClankerNPU.Lib.FlagRing
import ClankerNPU.Lib.StepSystem
import Mathlib.Algebra.Order.Group.Multiset

/-! # The eagle receive path

    Core 1 reads the rxdmad ring: whole frames go to TDMA or to a packet
    queue, the segments of a chained frame are collected and then put
    into the multi-segment queue (`eagle_rxdmad_handle`). The PPE hands
    back buffers of flows it did not forward (`eagle_ppe_drain`). Core 3
    moves both kinds of queue into the host adaptor's out ring
    (`eagle_txq_drain`, `eagle_mseg_drain`) and passes tx done events up
    (`eagle_txdone_poll`).

    A step is one access the harts can see of each other: an enqueue
    under mutex 10, a drained entry, a look at an own flag, a return of
    ids. What the hardware decides is part of an action: the descriptor
    words, the PPE registers, whether TDMA or the out ring has room.
    Debug counters and frame bytes carry no buffer id and are left out.
    Only the drain reads its read index, so the model moves it with each
    entry rather than at the end of the call. -/

namespace ClankerNPU.EagleRx

open Circular

/-! ## Constants -/

/-- `EAGLE_TXQ_ENTRIES` -/
def eagleTxqEntries : ℕ := 512

/-- `EAGLE_MSEG_ENTRIES` -/
def eagleMsegEntries : ℕ := 128

/-- `EAGLE_MSEG_MAX`, segments one frame may span. -/
def eagleMsegMax : ℕ := 7

/-- `EAGLE_DRAIN_BATCH`; without `HAS_ID_BATCH` a drain takes one packet. -/
def eagleDrainBatch (b : Build) : ℕ := if b.hasIdBatch then 16 else 1

/-- `eagle_mseg_retry` -/
def eagleMsegRetry : ℕ := 3

/-- `PPE_WIFI_BUF_FREE` -/
def ppeWifiBufFree (b : Build) : BitVec 32 := if b.soc = .an7581 then 0x10000 else 0x40000000

/-- `PPE_WIFI_BUF_WCID` -/
def ppeWifiBufWcid (b : Build) : BitVec 32 := if b.soc = .an7583 then 0x7FFF else 0xFFFF

/-! ## Queues -/

/-- Index of a queue: band 0 takes what the PPE and the tx done ring
    hand over, band 1 what core 1 does. -/
inductive Band where
  | band0
  | band1
  deriving DecidableEq, Repr

/-- `(dst == 0) ? 0 : 1` -/
def queueBand (dst : ℕ) : Band := if dst = 0 then .band0 else .band1

/-- An entry of a packet queue; its own flag is bit 0 of `flags`. -/
structure PktEntry where
  bufId : ℕ
  wcid : ℕ
  segLen : ℕ
  pktLen : ℕ
  info : ℕ
  flags : BitVec 8
  deriving DecidableEq, Repr

/-- An entry of a multi-segment queue: `segLen` is the frame's length,
    `pktLen` the segment's. `origin` is no field of the source's entry:
    it records which frame the segment was queued for, and its place
    there. -/
structure MsegEntry where
  bufId : ℕ
  segLen : ℕ
  pktLen : ℕ
  flags : BitVec 8
  origin : Option (ℕ × ℕ)
  deriving DecidableEq, Repr

/-- What a cleared entry of a multi-segment queue reads as. -/
def msegCleared : MsegEntry := ⟨0xFFFFFFFF, 0, 0, 0, none⟩

/-- Flags of segment `i` of `count`: last in bit 1, number from 1 in bits
    4:2, count in bits 7:5. -/
def segFlags (count i : ℕ) : BitVec 8 :=
  BitVec.ofNat 8 (((if i = count - 1 then 1 else 0) <<< 1) ||| (count <<< 5) ||| ((i + 1) <<< 2))

/-- `flags & 2` -/
def flagLast (flags : BitVec 8) : Bool := flags &&& 2 ≠ 0

/-- `flags >> 5` -/
def flagCount (flags : BitVec 8) : ℕ := (flags >>> 5).toNat

/-- `(flags >> 2) & 7` -/
def flagIdx (flags : BitVec 8) : ℕ := ((flags >>> 2) &&& 7).toNat

/-! ## Cores -/

/-- A collected segment. -/
structure Seg where
  bufId : ℕ
  len : ℕ
  deriving DecidableEq, Repr

/-- The rxdmad globals: `segs` is what `eagle_seg_bufid` and
    `eagle_seg_len` hold below `eagle_rxdmad_segs`; the rest of both
    arrays is zero. -/
structure RxChain where
  chaining : Bool
  abort : Bool
  segs : List Seg
  seglen : ℕ
  deriving DecidableEq, Repr

/-- `eagle_seg_bufid[i]` -/
def RxChain.segBufid (c : RxChain) (i : ℕ) : ℕ := (c.segs[i]?).elim 0 (·.bufId)

/-- `eagle_seg_len[i]` -/
def RxChain.segLen (c : RxChain) (i : ℕ) : ℕ := (c.segs[i]?).elim 0 (·.len)

/-- Segments to queue: `eagle_rxdmad_segs`, at most `EAGLE_MSEG_MAX`. -/
def RxChain.count (c : RxChain) : ℕ :=
  if c.segs.length > eagleMsegMax then eagleMsegMax else c.segs.length

/-- The entry that segment `i` of the chain, frame `f`, is queued as. -/
def RxChain.entry (c : RxChain) (f i : ℕ) : MsegEntry where
  bufId := c.segBufid i
  segLen := u16 c.seglen
  pktLen := c.segLen i
  flags := segFlags c.count i ||| 1
  origin := some (f, i)

/-- Where core 1 stands. -/
inductive Core1Pc where
  | idle
  /-- in `tdma_tx_submit` -/
  | submit (id len : ℕ)
  /-- a whole frame to be queued -/
  | put (id len : ℕ)
  /-- an id to be given back -/
  | drop (id : ℕ)
  /-- the ids of an aborted chain still to be given back -/
  | abort (rest : List ℕ)
  /-- at the head of the loop over the segments; `kept` (not in the
      source): the earlier ones are all in the multi-segment queue -/
  | emit (i : ℕ) (kept : Bool)
  /-- segment `i` was refused -/
  | emitDrop (i : ℕ)
  deriving DecidableEq, Repr

/-- Where core 3 stands. -/
inductive Core3Pc where
  | idle
  /-- in the loop of `eagle_txq_drain`, `ids[0..n)` to be given back -/
  | txq (band : Band) (left : ℕ) (ids : List ℕ)
  | txqEnd (ids : List ℕ)
  /-- collecting a frame: `segs` entries seen, the next one at `idx` -/
  | mseg (idx segs waited : ℕ)
  /-- taking the entries seen, `left` to go -/
  | msegTake (ok : Bool) (left : ℕ) (taken : List MsegEntry)
  /-- a tx done event's buffer to be queued -/
  | event (id len : ℕ)
  | eventDrop (id : ℕ)
  deriving DecidableEq, Repr

/-- Where the hart in `eagle_ppe_drain` stands; `ids` wait to be freed. -/
inductive PpePc where
  | idle
  | loop (ids : List ℕ)
  | full (ids : List ℕ)
  | drop (id : ℕ) (ids : List ℕ)
  deriving DecidableEq, Repr

/-- The queues, the harts and what has gone by. The last seven fields
    only record: `handed` the ids the chip and the PPE gave the NPU,
    `returned` those given to `buf_id_return` and `tdma` those TDMA took;
    `frames` the chained frames in the order they were queued, `drained`
    what `eagle_mseg_drain` took out, `given` the ids it gave back and
    `outs` what it handed to the host adaptor. -/
structure RxState where
  txq : Band → FlagRing PktEntry
  mseg : Band → FlagRing MsegEntry
  chain : RxChain
  core1 : Core1Pc
  core3 : Core3Pc
  ppe : PpePc
  handed : Multiset ℕ
  returned : Multiset ℕ
  tdma : Multiset ℕ
  frames : List RxChain
  drained : List MsegEntry
  given : List ℕ
  outs : List (List MsegEntry)

/-- After `eagle_queue_init` on both bands: every queue is empty. -/
def eagleQueueInit : RxState where
  txq := fun _ => FlagRing.empty
  mseg := fun _ => FlagRing.empty
  chain := ⟨false, false, [], 0⟩
  core1 := .idle
  core3 := .idle
  ppe := .idle
  handed := 0
  returned := 0
  tdma := 0
  frames := []
  drained := []
  given := []
  outs := []

/-- `eagle_pkt_enqueue`: a frame that arrived whole goes to the packet
    queue, one spread over several buffers to the multi-segment queue.
    The two lengths decide; `none` is a refusal. -/
def eaglePktEnqueue (s : RxState) (bufId segLen wcid info dst : ℕ) (flags : BitVec 8)
    (pktLen : ℕ) (origin : Option (ℕ × ℕ)) : Option RxState :=
  let band := queueBand dst
  if pktLen = segLen then
    ((s.txq band).put eagleTxqEntries ⟨bufId, wcid, segLen, pktLen, info, flags ||| 1⟩).map
      fun r => { s with txq := Function.update s.txq band r }
  else
    ((s.mseg band).put eagleMsegEntries ⟨bufId, segLen, pktLen, flags ||| 1, origin⟩).map
      fun r => { s with mseg := Function.update s.mseg band r }

/-- Contents of a packet queue. -/
def RxState.pkts (s : RxState) (band : Band) : List PktEntry :=
  (s.txq band).contents eagleTxqEntries

/-- Contents of a multi-segment queue. -/
def RxState.msegs (s : RxState) (band : Band) : List MsegEntry :=
  (s.mseg band).contents eagleMsegEntries

/-- `buf_id_return` of one id or `buf_id_return_n` of several. -/
def bufIdReturn (s : RxState) (ids : List ℕ) : RxState :=
  { s with returned := s.returned + ids }

/-! ## Core 1 -/

/-- The info word of a descriptor. -/
def rxdInfo (dw1 dw2 : BitVec 32) : BitVec 32 :=
  let info := (((dw1 >>> 16) &&& 0x3FFF) <<< 3) ||| (((dw1 >>> 30) &&& 1) ^^^ 1)
  let info := if dw1 &&& 0x1800 = 0x800 then info ||| (2 ||| ((dw1 &&& 0x7F) <<< 17)) else info
  let info := if dw1 &&& 0x2000 ≠ 0 then info ||| 0x2000000 else info
  (info &&& 0x0FFFFFFF) ||| ((dw2 >>> 12) <<< 28)

/-- The error bits of a descriptor. -/
def rxdErr (dw1 dw2 : BitVec 32) : BitVec 32 :=
  let err := if dw1 &&& 0x2000 ≠ 0 then 1 else 0
  if dw2 &&& 0xF000 = 0x1000 then err ||| 4
  else if dw2 &&& 0xF000 = 0x2000 then err ||| 2
  else err

/-- `(u16)buf_id` -/
def rxdBufId (dw2 : BitVec 32) : ℕ := (dw2 >>> 16).toNat

/-- `(info >> 3) & 0x3FFF` -/
def infoSegLen (info : BitVec 32) : ℕ := ((info >>> 3) &&& 0x3FFF).toNat

/-- A whole frame in one buffer. `icv` is the ICV error table's bit for
    the frame's wcid and tid, `force` is `wifi_force_to_cpu`. -/
def rxdWhole (dw1 dw2 : BitVec 32) (icv force : Bool) : Core1Pc :=
  let info := rxdInfo dw1 dw2
  let segLen := infoSegLen info
  let cleared := rxdErr dw1 dw2 &&& 3 ≠ 0 ∧ icv
  let err := if cleared then 0 else rxdErr dw1 dw2
  let dw2' := if cleared then dw2 &&& ~~~0x80 else dw2
  if err = 0 ∧ force = false ∧ dw2' &&& 0x80 = 0 then
    -- dst_sel 1: the ethernet header's offset leads the frame
    if info &&& 2 ≠ 0 then
      .submit (rxdBufId dw2) (u16 (segLen - ((info >>> 16) &&& 0xFE).toNat))
    else .put (rxdBufId dw2) segLen
  else .put (rxdBufId dw2) segLen

/-- Collect a descriptor of a chained frame. -/
def rxdChained (c : RxChain) (dw1 dw2 : BitVec 32) : RxChain × Core1Pc :=
  let info := rxdInfo dw1 dw2
  let c : RxChain := if c.chaining then c else ⟨true, false, [], 0⟩
  if c.abort then (c, .drop (rxdBufId dw2))
  else
    let c := { c with segs := c.segs ++ [⟨rxdBufId dw2, infoSegLen info⟩]
                      seglen := u32 (c.seglen + infoSegLen info) }
    if info &&& 1 ≠ 0 then
      if c.segs.length > eagleMsegMax - 1 then
        ({ c with abort := true }, .abort ((List.range eagleMsegMax).map c.segBufid))
      else (c, .idle)
    else (c, .emit 0 true)

/-- `eagle_rxdmad_handle`, one descriptor: the chain it leaves and where
    core 1 goes on. -/
def eagleRxdmadHandle (c : RxChain) (dw1 dw2 : BitVec 32) (icv force : Bool) :
    RxChain × Core1Pc :=
  let more := rxdInfo dw1 dw2 &&& 1 ≠ 0
  if ¬more ∧ c.chaining = false then (c, rxdWhole dw1 dw2 icv force)
  else if ¬more ∧ c.abort then
    ({ c with chaining := false, abort := false }, .drop (rxdBufId dw2))
  else rxdChained c dw1 dw2

/-- The chip's next descriptor. A chain that is complete becomes the next
    frame to be queued. -/
def rxd (s : RxState) (dw1 dw2 : BitVec 32) (icv force : Bool) : Option RxState :=
  match s.core1 with
  | .idle =>
    let r := eagleRxdmadHandle s.chain dw1 dw2 icv force
    some { s with chain := r.1
                  core1 := r.2
                  handed := rxdBufId dw2 ::ₘ s.handed
                  frames := if r.2 = .emit 0 true then s.frames ++ [r.1] else s.frames }
  | _ => none

/-- `tdma_tx_submit` took the frame or found no room. -/
def rxSubmit (s : RxState) (ok : Bool) : Option RxState :=
  match s.core1 with
  | .submit id _ =>
    some (if ok then { s with core1 := .idle, tdma := id ::ₘ s.tdma }
          else { s with core1 := .drop id })
  | _ => none

/-- Queue a whole frame. -/
def rxPut (s : RxState) : Option RxState :=
  match s.core1 with
  | .put id len =>
    match eaglePktEnqueue s id len 0 0 1 2 len none with
    | some s' => some { s' with core1 := .idle }
    | none => some { s with core1 := .drop id }
  | _ => none

/-- Give back the id at hand, or the next one of an aborted chain. -/
def rxReturn (s : RxState) : Option RxState :=
  match s.core1 with
  | .drop id => some { bufIdReturn s [id] with core1 := .idle }
  | .abort (id :: rest) => some { bufIdReturn s [id] with core1 := .abort rest }
  | .abort [] => some { s with core1 := .idle }
  | .emitDrop i =>
    some { bufIdReturn s [s.chain.segBufid i] with core1 := .emit (i + 1) false }
  | _ => none

/-- Queue the next segment of a complete chain. -/
def rxEmit (s : RxState) : Option RxState :=
  match s.core1 with
  | .emit i kept =>
    let c := s.chain
    if i < c.count then
      match eaglePktEnqueue s (c.segBufid i) (u16 c.seglen) 0 0 1 (segFlags c.count i)
          (c.segLen i) (some (s.frames.length - 1, i)) with
      | some s' =>
        some { s' with core1 := .emit (i + 1) (kept && c.segLen i ≠ u16 c.seglen) }
      | none => some { s with core1 := .emitDrop i }
    else some { s with core1 := .idle, chain := { c with chaining := false } }
  | _ => none

/-! ## PPE buffer returns -/

def ppeStart (s : RxState) : Option RxState :=
  match s.ppe with
  | .idle => some { s with ppe := .loop [] }
  | _ => none

/-- One entry of the PPE's FIFO: `v` and `info` are its registers, `hdr`
    the info word in the buffer. -/
def ppeEntry (b : Build) (s : RxState) (v info hdr : BitVec 32) : Option RxState :=
  match s.ppe with
  | .loop ids =>
    let id := (v &&& 0xFFFF).toNat
    let s := { s with handed := id ::ₘ s.handed }
    if v &&& ppeWifiBufFree b ≠ 0 then
      if b.hasIdBatch then
        some { s with ppe := if (ids ++ [id]).length = 16 then .full (ids ++ [id])
                             else .loop (ids ++ [id]) }
      else some (bufIdReturn s [id])
    else
      match eaglePktEnqueue s id (infoSegLen hdr) (info &&& ppeWifiBufWcid b).toNat
          ((info >>> 16) &&& 31).toNat 0 2 (infoSegLen hdr) none with
      | some s' => some s'
      | none => some { s with ppe := .drop id ids }
  | _ => none

/-- A refused buffer or a full batch goes back. -/
def ppeReturn (s : RxState) : Option RxState :=
  match s.ppe with
  | .drop id ids => some { bufIdReturn s [id] with ppe := .loop ids }
  | .full ids => some { bufIdReturn s ids with ppe := .loop [] }
  | _ => none

/-- The FIFO is empty or the call has done enough: the rest goes back. -/
def ppeEnd (s : RxState) : Option RxState :=
  match s.ppe with
  | .loop ids => some { bufIdReturn s ids with ppe := .idle }
  | _ => none

/-! ## Core 3 -/

def txqStart (b : Build) (s : RxState) (band : Band) : Option RxState :=
  match s.core3 with
  | .idle => some { s with core3 := .txq band (eagleDrainBatch b) [] }
  | _ => none

/-- One packet of `eagle_txq_drain`. `refused`: the out ring was full,
    which ends the call. -/
def txqEntry (s : RxState) (refused : Bool) : Option RxState :=
  match s.core3 with
  | .txq band left ids =>
    match (s.txq band).slot (s.txq band).ridx with
    | none => some { s with core3 := .txqEnd ids }
    | some e =>
      let sent := e.bufId < 2 ^ 31 ∧ e.segLen ≠ 0
      let ids' := if sent then ids ++ [u16 e.bufId] else ids
      let s := { s with txq := Function.update s.txq band ((s.txq band).pop eagleTxqEntries) }
      if left - 1 ≠ 0 ∧ ¬(sent ∧ refused) then
        some { s with core3 := .txq band (left - 1) ids' }
      else some { s with core3 := .txqEnd ids' }
  | _ => none

/-- The ids of the packets drained go back together. -/
def txqReturn (s : RxState) : Option RxState :=
  match s.core3 with
  | .txqEnd ids => some { bufIdReturn s ids with core3 := .idle }
  | _ => none

/-- `eagle_mseg_drain` finds an entry to start with. -/
def msegStart (s : RxState) : Option RxState :=
  match s.core3 with
  | .idle =>
    let r := s.mseg .band1
    if (r.slot r.ridx).isSome then some { s with core3 := .mseg r.ridx 0 0 } else some s
  | _ => none

/-- Collect: look at the entry at `idx`. -/
def msegLook (s : RxState) : Option RxState :=
  match s.core3 with
  | .mseg idx segs waited =>
    match (s.mseg .band1).slot idx with
    | none =>
      -- core 1 queues a frame's segments back to back: wait for this one
      some { s with core3 := if waited + 1 > eagleMsegRetry then .idle
                             else .mseg idx segs (waited + 1) }
    | some e =>
      let segs := segs + 1
      if flagLast e.flags then
        let ok := flagCount e.flags = segs ∧ flagIdx e.flags = segs
        some { s with core3 := .msegTake ok segs [] }
      else if segs ≥ flagCount e.flags then some { s with core3 := .msegTake false segs [] }
      else if waited > eagleMsegRetry then some { s with core3 := .idle }
      else some { s with core3 := .mseg (next (eagleMsegEntries - 1) idx) segs waited }
  | _ => none

/-- Take the entries seen out of the queue, then hand them to the host if
    they were `ok` and give their ids back. With `HAS_ID_BATCH` the ids
    go back together at the end, without it one by one. `room`: the out
    ring takes the frame. -/
def msegTake (b : Build) (s : RxState) (room : Bool) : Option RxState :=
  match s.core3 with
  | .msegTake ok left taken =>
    if left ≠ 0 then
      let r := s.mseg .band1
      let e := (r.slot r.ridx).getD msegCleared
      let s := { s with mseg := Function.update s.mseg .band1 (r.pop eagleMsegEntries)
                        drained := s.drained ++ [e]
                        core3 := .msegTake ok (left - 1) (taken ++ [e]) }
      if b.hasIdBatch then some s
      else some { bufIdReturn s [u16 e.bufId] with given := s.given ++ [u16 e.bufId] }
    else
      let s := { s with core3 := .idle
                        outs := if ok ∧ room then s.outs ++ [taken] else s.outs }
      let ids : List ℕ := taken.map fun e => u16 e.bufId
      if b.hasIdBatch then some { bufIdReturn s ids with given := s.given ++ ids } else some s
  | _ => none

/-- A tx done event goes to the host in its buffer; its descriptor has
    got a fresh one. -/
def eventStart (s : RxState) (old : BitVec 16) (dw1 : BitVec 32) : Option RxState :=
  match s.core3 with
  | .idle =>
    some { s with core3 := .event old.toNat ((dw1 >>> 16) &&& 0x3FFF).toNat
                  handed := old.toNat ::ₘ s.handed }
  | _ => none

def eventPut (s : RxState) : Option RxState :=
  match s.core3 with
  | .event id len =>
    match eaglePktEnqueue s id len 0 0 0 2 len none with
    | some s' => some { s' with core3 := .idle }
    | none => some { s with core3 := .eventDrop id }
  | _ => none

def eventReturn (s : RxState) : Option RxState :=
  match s.core3 with
  | .eventDrop id => some { bufIdReturn s [id] with core3 := .idle }
  | _ => none

/-! ## The system -/

/-- A step of one of the harts. -/
inductive RxAction where
  | rxd (dw1 dw2 : BitVec 32) (icv force : Bool)
  | submit (ok : Bool)
  | put
  | back
  | emit
  | ppeStart
  | ppeEntry (v info hdr : BitVec 32)
  | ppeReturn
  | ppeEnd
  | txqStart (band : Band)
  | txqEntry (refused : Bool)
  | txqReturn
  | msegStart
  | msegLook
  | msegTake (room : Bool)
  | eventStart (old : BitVec 16) (dw1 : BitVec 32)
  | eventPut
  | eventReturn

def rxStep (b : Build) (s : RxState) : RxAction → Option RxState
  | .rxd dw1 dw2 icv force => EagleRx.rxd s dw1 dw2 icv force
  | .submit ok => rxSubmit s ok
  | .put => rxPut s
  | .back => rxReturn s
  | .emit => rxEmit s
  | .ppeStart => EagleRx.ppeStart s
  | .ppeEntry v info hdr => EagleRx.ppeEntry b s v info hdr
  | .ppeReturn => EagleRx.ppeReturn s
  | .ppeEnd => EagleRx.ppeEnd s
  | .txqStart band => EagleRx.txqStart b s band
  | .txqEntry refused => EagleRx.txqEntry s refused
  | .txqReturn => EagleRx.txqReturn s
  | .msegStart => EagleRx.msegStart s
  | .msegLook => EagleRx.msegLook s
  | .msegTake room => EagleRx.msegTake b s room
  | .eventStart old dw1 => EagleRx.eventStart s old dw1
  | .eventPut => EagleRx.eventPut s
  | .eventReturn => EagleRx.eventReturn s

/-- The receive path from set-up, its harts interleaving. -/
def rxSystem (b : Build) : StepSystem RxState RxAction where
  init := fun s => s = eagleQueueInit
  step := fun s a s' => rxStep b s a = some s'

end ClankerNPU.EagleRx
