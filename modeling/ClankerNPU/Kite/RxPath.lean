import ClankerNPU.Kite.Bytes
import ClankerNPU.Kite.Frame
import ClankerNPU.Kite.Pipeline
import ClankerNPU.Lib.StepSystem
import Mathlib.Data.Finset.Defs
import Mathlib.Data.Multiset.AddSub

/-! # The rx path of the kite bands, step by step

    One hart runs `kite_rx_2g` and `kite_rx_5g`, another one
    `rxnode_drain` and `pinode_drain`, a third one `kite_pipeline_worker`;
    the mail that sets a ring up runs on core 0 and locks nothing. The
    chip writes descriptors, and the classifier, the TDMA engine and the
    host hold ids and give them back at any time. A step is one call on
    the id pool, one look at a ring or one turn of a loop.

    The ids are those of the buffer manager or the software pool, which
    fit 15 bits, so the table's `s16` and a node's `u32` are one number. A
    slot of the pipeline is its id here. Counters, the copied bytes, the
    calls to the host and the kicks of the chip are left out. -/

namespace ClankerNPU.Kite

/-! ## State -/

/-- Where the rx function of a band stands. -/
inductive RxPc where
  | idle
  /-- `init_done` was set: about to look for a frame -/
  | called
  /-- a frame of one descriptor, about to allocate -/
  | single (ridx len : ℕ)
  /-- with the classifier -/
  | classify (old len : ℕ)
  /-- about to call `pkt_forward` for a whole frame; `next` is the index to go on from -/
  | forward (e : PiNode) (next : ℕ)
  /-- the node ring was full -/
  | giveBack (id next : ℕ)
  /-- `kite_rx_skip`, `n` left -/
  | skip (idx n : ℕ)
  /-- the segment loop, about to allocate -/
  | segs (idx n len count : ℕ) (seg : BitVec 8)
  /-- its `pkt_forward`, `tries` more after this call -/
  | seg (idx n len count : ℕ) (seg : BitVec 8) (id tries : ℕ)
  /-- the segment is queued, its slot not yet refilled -/
  | refill (idx n len count : ℕ) (seg : BitVec 8) (id : ℕ)
  /-- a frame to copy together, about to allocate -/
  | copyAlloc (idx n len : ℕ)
  /-- the copy loop -/
  | copy (idx n len id : ℕ)

/-- Where `rxnode_drain` stands. -/
inductive SegDrainPc where
  | idle
  /-- `init_done` was set: about to look at its node -/
  | called
  | scan (scan tries count : ℕ)
  /-- about to give back the next of `count` segments -/
  | process (count : ℕ)
  /-- its node is not yet cleared, `count` left -/
  | clear (count : ℕ)

/-- Where `pinode_drain` stands. -/
inductive WholeDrainPc where
  | idle
  /-- `init_done` was set: about to look at its node -/
  | called
  /-- done with the node, which is not yet cleared -/
  | clear

/-- Where `wifi_mail_set_desc` stands, with the ring size of the mail. -/
inductive SetDescPc where
  | idle
  /-- `wifi_pkt_queue_init`, about to clear node `i` of the whole frames -/
  | wholes (i size : ℕ)
  /-- the same, node `i` of the segments -/
  | segs (i size : ℕ)
  /-- `wifi_npu_init`, about to clear slot `i` of the pipeline -/
  | pipe (i size : ℕ)
  /-- `wifi_init_rxd_5g` or `_2g`, about to look at `init_done` -/
  | table (size : ℕ)
  /-- about to give back slot `i` -/
  | freeing (i size : ℕ)
  /-- about to fill slot `i` -/
  | filling (i size : ℕ)

/-- One band: the descriptors, `rxd_5g_bufid_table` or
    `rxd_2g_bufid_base`, and the node rings. -/
structure RxBand where
  desc : ℕ → RxDesc
  tbl : ℕ → ℕ
  cpuIdx : ℕ
  /-- `rxd_5g_init_done` or `rxd_2g_init_done` -/
  initDone : Bool
  /-- the slots filled by a set-up that ran out of ids -/
  unset : ℕ
  mail : SetDescPc
  rx : RxPc
  segs : FlagRing RxNode
  segDrain : SegDrainPc
  wholes : FlagRing PiNode
  wholeDrain : WholeDrainPc
  /-- the ids nothing refers to any more -/
  lost : List ℕ

/-- One band with what it shares: the pipeline, the free ids, and the ids
    the classifier, the TDMA engine and the host hold. -/
structure RxLocal where
  band : RxBand
  pipe : FlagRing ℕ
  pool : Multiset ℕ
  away : Multiset ℕ

/-- Both bands; the 5G one is `true`. -/
structure RxState where
  band : Bool → RxBand
  pipe : FlagRing ℕ
  /-- the id `kite_pipeline_worker` has read from its slot, not yet cleared -/
  worker : Option ℕ
  pool : Multiset ℕ
  away : Multiset ℕ

/-- The packet buffer, `wifi_retry_limit`, and whether the build has the
    third core and with it the pipeline. -/
structure RxCfg where
  pktBuf : ℕ
  retryLimit : ℕ
  pipe : Bool

/-- The number of rx descriptors -/
def rxRing : ℕ := kiteRxRingLast + 1

/-- `PINODE_RING_SIZE_5G` for the 5G band, else `PINODE_RING_SIZE_2G` -/
def wholeRing (b : Bool) : ℕ := pinodeRingSize b.toNat

/-! ## The rx function -/

/-- The rx function at another place. -/
def RxLocal.goto (l : RxLocal) (pc : RxPc) : RxLocal := { l with band := { l.band with rx := pc } }

/-- It is done, and goes on from `next`. -/
def RxLocal.done (l : RxLocal) (next : ℕ) : RxLocal :=
  { l with band := { l.band with rx := .idle, cpuIdx := next } }

/-- A descriptor goes back to the chip. -/
def RxBand.recycle (s : RxBand) (idx : ℕ) : RxBand :=
  { s with desc := Function.update s.desc idx (s.desc idx).recycled }

/-- A slot and its descriptor get another id. -/
def RxBand.arm (s : RxBand) (idx id addr : ℕ) : RxBand :=
  { s with
    tbl := Function.update s.tbl idx id
    desc := Function.update s.desc idx { (s.desc idx).recycled with addr := addr } }

/-- `buf_id_alloc_hw`: the pool gives the id, or none. -/
def RxLocal.alloc (l : RxLocal) (id : Option ℕ) (fail : RxLocal) (ok : ℕ → RxLocal → RxLocal) :
    Option RxLocal :=
  match id with
  | none => some fail
  | some id => if id ∈ l.pool then some (ok id { l with pool := l.pool.erase id }) else none

/-- A whole frame for `pkt_forward` -/
def wholeNode (id len : ℕ) (alone : Bool) : PiNode :=
  ⟨id, 0, len % 2 ^ 16, len % 2 ^ 16, 2#8 ||| 1#8, 0, alone⟩

/-- The call of `pkt_forward` for a segment: a piece of the length of the
    whole frame goes to the other ring. -/
def RxBand.putSeg (b : Bool) (s : RxBand) (idx len count : ℕ) (seg : BitVec 8) : Option RxBand :=
  let d := s.desc idx
  let flags := segFlags d.w1 seg count ||| 1#8
  if d.frag ≠ len % 2 ^ 16 then
    (s.segs.put rxnodeRingSize ⟨s.tbl idx, u16 (len : ℕ), u16 (d.frag : ℕ), flags⟩).map fun r =>
      { s with segs := r }
  else
    (s.wholes.put (wholeRing b)
      ⟨s.tbl idx, 0, u16 (len : ℕ), u16 (d.frag : ℕ), flags, 0, false⟩).map
      fun r => { s with wholes := r }

/-- What `kite_rx_multi` does with a frame of `count` descriptors. -/
def RxLocal.multi (l : RxLocal) (idx len count : ℕ) : RxLocal :=
  let n := count % 256
  if len ≥ 0x4000 then l.goto (.skip idx n)
  else if len > kiteRxBufLen then l.goto (.segs idx n len count 0#8)
  else l.goto (.copyAlloc idx n len)

/-- What becomes of a frame of one descriptor: the classifier keeps it, or
    leaves it with the flag `alone`, or core 2 is to classify it. -/
inductive RxVerdict where
  | taken
  | left (alone : Bool)
  | piped
  deriving DecidableEq

/-- One step of the rx function of a band; the pool answers with `id`. -/
def rxStep (cfg : RxCfg) (b : Bool) (id : Option ℕ) (v : RxVerdict) (l : RxLocal) :
    Option RxLocal :=
  let s := l.band
  match s.rx with
  | .idle => if s.initDone then some (l.goto .called) else none
  | .called =>
    match kiteRxFrame s.desc s.cpuIdx rxRing with
    | none => none
    | some r =>
      if r.n = 0 then some (l.goto .idle)
      else if r.n = 1 then some (l.goto (.single r.ridx r.len))
      else some (l.multi s.cpuIdx r.len r.n)
  | .single ridx len =>
    l.alloc id { l with band := { s.recycle ridx with rx := .idle, cpuIdx := rxNext ridx } }
      fun id l => { l with band := { s.arm ridx id (pktDma cfg.pktBuf id) with
          rx := .classify (s.tbl ridx) len, cpuIdx := rxNext ridx } }
  | .classify old len =>
    match v with
    | .taken => some { l.goto .idle with away := old ::ₘ l.away }
    | .left alone => some (l.goto (.forward (wholeNode old len alone) s.cpuIdx))
    | .piped =>
      if cfg.pipe && b then
        match l.pipe.put kitePipeEntries old with
        | none => some (l.goto (.forward (wholeNode old len false) s.cpuIdx))
        | some r => some { l.goto .idle with pipe := r }
      else none
  | .forward e next =>
    match s.wholes.put (wholeRing b) e with
    | none => some (l.goto (.giveBack e.bufId next))
    | some r => some { l with band := { s with wholes := r, rx := .idle, cpuIdx := next } }
  | .giveBack id next => some { l.done next with pool := id ::ₘ l.pool }
  | .skip idx 0 => some (l.done idx)
  | .skip idx (n + 1) =>
    some { l with band := { s.recycle idx with rx := .skip (rxNext idx) n } }
  | .segs idx 0 _ _ _ => some (l.done idx)
  | .segs idx (n + 1) len count seg =>
    l.alloc id (l.goto (.skip idx (n + 1))) fun id l =>
      l.goto (.seg idx n len count (seg + 1#8) id (cfg.retryLimit % 256))
  | .seg idx n len count seg id tries =>
    match s.putSeg b idx len count seg with
    | some s => some { l with band := { s with rx := .refill idx n len count seg id } }
    | none =>
      if tries = 0 then
        some { l with band := { s with rx := .skip idx (n + 1), lost := s.lost ++ [id] } }
      else some (l.goto (.seg idx n len count seg id (tries - 1)))
  | .refill idx n len count seg id =>
    some { l with band := { s.arm idx id (pktVa cfg.pktBuf id) with
      rx := .segs (rxNext idx) n len count seg } }
  | .copyAlloc idx n len =>
    l.alloc id (l.goto (.skip idx n)) fun id l => l.goto (.copy idx n len id)
  | .copy idx 0 len id => some (l.goto (.forward (wholeNode id len false) idx))
  | .copy idx (n + 1) len id =>
    some { l with band := { s.recycle idx with rx := .copy (rxNext idx) n len id } }

/-! ## The mail that sets a ring up -/

/-- The mail at another place. -/
def RxLocal.mailAt (l : RxLocal) (pc : SetDescPc) : RxLocal :=
  { l with band := { l.band with mail := pc } }

/-- The indices of the node rings back at the start -/
def RxBand.rewind (s : RxBand) (size : ℕ) : RxBand :=
  { s with wholes := s.wholes.rewind, segs := s.segs.rewind, mail := .wholes 0 size }

/-- A node of the whole frames cleared: what id it had is lost. -/
def RxBand.wipeWhole (s : RxBand) (i size : ℕ) : RxBand :=
  { s with
    wholes := s.wholes.wipe i, mail := .wholes (i + 1) size
    lost := s.lost ++ (s.wholes.slot i).toList.map PiNode.bufId }

/-- A node of the segments cleared -/
def RxBand.wipeSeg (s : RxBand) (i size : ℕ) : RxBand :=
  { s with
    segs := s.segs.wipe i, mail := .segs (i + 1) size
    lost := s.lost ++ (s.segs.slot i).toList.map RxNode.bufId }

/-- A slot of the pipeline cleared -/
def RxLocal.wipePipe (l : RxLocal) (i size : ℕ) : RxLocal :=
  { l with
    pipe := l.pipe.wipe i
    band := { l.band with
      mail := .pipe (i + 1) size, lost := l.band.lost ++ (l.pipe.slot i).toList } }

/-- A set-up that ran out of ids is done again: with `init_done` clear
    its part of the table is not given back. -/
def RxBand.forget (s : RxBand) (size : ℕ) : RxBand :=
  { s with
    unset := 0, mail := .filling 0 size
    lost := s.lost ++ (List.range s.unset).map s.tbl }

/-- Where `wifi_npu_init` goes on after the node rings. -/
def afterNodes (cfg : RxCfg) (size : ℕ) : SetDescPc :=
  if cfg.pipe then .pipe 0 size else .table size

/-- The ring a mail sets up: any band but 1 takes that of 2.4G. -/
def rxdBand (band : ℕ) : Bool := band == 1

/-- `wifi_mail_set_desc` as it begins. Bands over 1 have no node rings. -/
def wifiMailSetDesc (cfg : RxCfg) (band size : ℕ) (l : RxLocal) : Option RxLocal :=
  match l.band.mail with
  | .idle =>
    if band ≤ 1 then some { l with band := l.band.rewind size }
    else some (l.mailAt (afterNodes cfg size))
  | _ => none

/-- Its next step; the pool answers with `id`. -/
def setDescStep (cfg : RxCfg) (b : Bool) (id : Option ℕ) (l : RxLocal) : Option RxLocal :=
  let s := l.band
  match s.mail with
  | .idle => none
  | .wholes i size =>
    if i < wholeRing b then some { l with band := s.wipeWhole i size }
    else some (l.mailAt (.segs 0 size))
  | .segs i size =>
    if i < rxnodeRingSize then some { l with band := s.wipeSeg i size }
    else some (l.mailAt (afterNodes cfg size))
  | .pipe i size =>
    if i < kitePipeEntries then some (l.wipePipe i size)
    else some (l.mailAt (.table size))
  | .table size =>
    if s.initDone then
      some { l with band := { s with initDone := false, unset := 0, mail := .freeing 0 size } }
    else some { l with band := s.forget size }
  | .freeing i size =>
    if i < size then some { l.mailAt (.freeing (i + 1) size) with pool := s.tbl i ::ₘ l.pool }
    else some (l.mailAt (.filling 0 size))
  | .filling i size =>
    if i < size then
      l.alloc id { l with band := { s with mail := .idle, unset := i } } fun id l =>
        { l with band := { s.arm i id (pktDma cfg.pktBuf id) with mail := .filling (i + 1) size } }
    else some { l with band := { s with mail := .idle, cpuIdx := 0, initDone := true } }

/-! ## The drains -/

/-- `rxnode_drain` at another place. -/
def RxLocal.segsAt (l : RxLocal) (pc : SegDrainPc) : RxLocal :=
  { l with band := { l.band with segDrain := pc } }

/-- One step of `rxnode_drain` -/
def segDrainStep (cfg : RxCfg) (l : RxLocal) : Option RxLocal :=
  let s := l.band
  match s.segDrain with
  | .idle => if s.initDone then some (l.segsAt .called) else none
  | .called =>
    match s.segs.slot s.segs.ridx with
    | none => some (l.segsAt .idle)
    | some _ => some (l.segsAt (.scan s.segs.ridx 0 0))
  | .scan scan tries count =>
    match s.segs.slot scan with
    | none =>
      if tries + 1 > cfg.retryLimit then some (l.segsAt (.process count))
      else some (l.segsAt (.scan scan (tries + 1) count))
    | some node =>
      let next := (count + 1) % 2 ^ 16
      if node.flags &&& 2#8 ≠ 0#8 then some (l.segsAt (.process next))
      else if next ≥ (node.flags >>> 5).toNat then some (l.segsAt (.process count))
      else if tries > cfg.retryLimit then some (l.segsAt (.process next))
      else some (l.segsAt (.scan (rxnodeNext scan) tries next))
  | .process 0 => some (l.segsAt .idle)
  | .process (count + 1) =>
    some { l.segsAt (.clear count) with
      pool := ((s.segs.slot s.segs.ridx).getD .clear).bufId ::ₘ l.pool }
  | .clear count =>
    some { l with band := { s with
      segs := s.segs.pop rxnodeRingSize, segDrain := .process count } }

/-- One step of `pinode_drain`. A frame of length 0 is not given back. -/
def wholeDrainStep (b : Bool) (l : RxLocal) : Option RxLocal :=
  let s := l.band
  match s.wholeDrain with
  | .idle => if s.initDone then some { l with band := { s with wholeDrain := .called } } else none
  | .called =>
    match s.wholes.slot s.wholes.ridx with
    | none => some { l with band := { s with wholeDrain := .idle } }
    | some e =>
      if e.pktLen = 0 then
        some { l with band := { s with wholeDrain := .clear, lost := s.lost ++ [e.bufId] } }
      else
        some { l with band := { s with wholeDrain := .clear }, pool := e.bufId ::ₘ l.pool }
  | .clear =>
    some { l with band := { s with wholes := s.wholes.pop (wholeRing b), wholeDrain := .idle } }

/-! ## The system -/

inductive RxAct where
  | rx (b : Bool) (id : Option ℕ) (v : RxVerdict)
  /-- a set-up mail comes in -/
  | mail (band size : ℕ)
  /-- its next step -/
  | setDesc (b : Bool) (id : Option ℕ)
  | segDrain (b : Bool)
  | wholeDrain (b : Bool)
  /-- the chip fills a descriptor -/
  | chip (b : Bool) (i : ℕ) (w1 : BitVec 32)
  | worker
  /-- another hart queues a whole frame it holds -/
  | other (b : Bool) (e : PiNode)
  /-- whoever holds an id gives it back -/
  | free (id : ℕ)

/-- One band of the state. -/
def RxState.on (s : RxState) (b : Bool) : RxLocal := ⟨s.band b, s.pipe, s.pool, s.away⟩

/-- A band after a step of its own. -/
def RxState.put (s : RxState) (b : Bool) (l : RxLocal) : RxState :=
  ⟨Function.update s.band b l.band, l.pipe, s.worker, l.pool, l.away⟩

/-- A frame queued from elsewhere: the node ring takes it, or it stays
    where it is. -/
def otherStep (b : Bool) (e : PiNode) (l : RxLocal) : Option RxLocal :=
  if e.bufId ∈ l.away then
    match l.band.wholes.put (wholeRing b) e with
    | none => some l
    | some r => some { l with band := { l.band with wholes := r }, away := l.away.erase e.bufId }
  else none

/-- The chip writes the length word of a descriptor and sets bit 31. -/
def chipStep (i : ℕ) (w1 : BitVec 32) (l : RxLocal) : RxLocal :=
  { l with band := { l.band with
    desc := Function.update l.band.desc i { l.band.desc i with w1 := w1 ||| 0x80000000#32 } } }

/-- One step of `kite_pipeline_worker`: it reads its slot, then clears it
    and has the frame. -/
def workerStep (s : RxState) : Option RxState :=
  match s.worker with
  | none =>
    match s.pipe.slot s.pipe.ridx with
    | none => none
    | some id => some { s with worker := some id }
  | some id =>
    some { s with pipe := s.pipe.pop kitePipeEntries, worker := none, away := id ::ₘ s.away }

def RxState.next (cfg : RxCfg) (s : RxState) : RxAct → Option RxState
  | .rx b id v => (rxStep cfg b id v (s.on b)).map (s.put b)
  | .mail band size =>
    (wifiMailSetDesc cfg band size (s.on (rxdBand band))).map (s.put (rxdBand band))
  | .setDesc b id => (setDescStep cfg b id (s.on b)).map (s.put b)
  | .segDrain b => (segDrainStep cfg (s.on b)).map (s.put b)
  | .wholeDrain b => (wholeDrainStep b (s.on b)).map (s.put b)
  | .chip b i w1 => some (s.put b (chipStep i w1 (s.on b)))
  | .worker => workerStep s
  | .other b e => (otherStep b e (s.on b)).map (s.put b)
  | .free id =>
    if id ∈ s.away then some { s with pool := id ::ₘ s.pool, away := s.away.erase id } else none

/-- A band before its first set-up mail. -/
def RxBand.fresh (desc : ℕ → RxDesc) : RxBand where
  desc := desc
  tbl := fun _ => 0
  cpuIdx := 0
  initDone := false
  unset := 0
  mail := .idle
  rx := .idle
  segs := .empty
  segDrain := .idle
  wholes := .empty
  wholeDrain := .idle
  lost := []

/-- The runs from the boot on, with all ids in the pool. -/
def rxPathSystem (cfg : RxCfg) (ids : Finset ℕ) : StepSystem RxState RxAct where
  init s := ∃ desc : Bool → ℕ → RxDesc, s = ⟨fun b => .fresh (desc b), .empty, none, ids.val, 0⟩
  step s a s' := s.next cfg a = some s'

end ClankerNPU.Kite
