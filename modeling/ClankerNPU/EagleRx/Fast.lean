import ClankerNPU.EagleRx.Fifo
import Mathlib.Data.BitVec
import Mathlib.Tactic.IntervalCases

/-! # The fast rx path

    `eagle_rxdmad_fast` handles the common descriptor, a whole frame
    without an error, and leaves every other kind to
    `eagle_rxdmad_handle`. Both are modelled as functions of the state
    they work on; `tdma_tx_submit` is any function of the TDMA ring's
    state and its arguments. -/

namespace ClankerNPU.EagleRx.Fast

/-! ## State -/

/-- `EAGLE_RX_RING_MAX_IDX` -/
def eagleRxRingMaxIdx : ℕ := 1535

/-- `EAGLE_PKT_HEADROOM` -/
def eaglePktHeadroom : BitVec 32 := 192

/-- The words of an rxdmad descriptor the handlers read. -/
structure RxdDesc where
  dw1 : BitVec 32
  dw2 : BitVec 32
  dw3 : BitVec 32

/-- The counters of `dbg` the handlers touch. -/
structure RxdDbg where
  rxd : BitVec 32
  rxhErr : BitVec 32
  rxhFlag : BitVec 32
  rxhRaw : BitVec 32
  rxfast : BitVec 32
  rxdrop : BitVec 32
  rxq : BitVec 32
  rxseg : BitVec 32
  rxbig : BitVec 32

/-- The collection of a chained frame. -/
structure RxdChain where
  abort : Bool
  segs : ℕ
  seglen : BitVec 32
  bufid : ℕ → BitVec 16
  len : ℕ → BitVec 16

/-- An entry of a multi-segment queue. -/
structure MsegCell where
  bufId : ℕ
  segLen : ℕ
  pktLen : ℕ
  flags : ℕ

/-- The state the handlers work on; `T` is the TDMA ring's. -/
structure RxdState (T : Type*) where
  desc : ℕ → RxdDesc
  /-- `eagle_rxdmad_ridx`, `eagle_rxdmad_gen`, `eagle_rxdmad_kick` -/
  ridx : ℕ
  gen : ℕ
  kick : BitVec 8
  emiCidxValid : ℕ
  /-- the index the chip reads, in its two places -/
  emiCidx : ℕ
  pcieCidx : ℕ
  pktBufAddr : BitVec 32
  /-- `REG32` of the packet buffers and of the ICV error table -/
  mem : BitVec 32 → BitVec 32
  icvErrTable : BitVec 32
  forceToCpu : BitVec 8
  /-- `NDBG_PRINTING(NDBG_WIFI)` -/
  printing : Bool
  txqCell : Band → ℕ → QEntry
  txqWidx : Band → ℕ
  msegCell : Band → ℕ → MsegCell
  msegWidx : Band → ℕ
  tdma : T
  /-- the ids given to `buf_id_return`, in order -/
  returned : List (BitVec 16)
  chain : RxdChain
  dbg : RxdDbg

variable {T : Type*}

/-- `eagle_buf_uncached` -/
def RxdState.bufUncached (s : RxdState T) (bufId : BitVec 32) : BitVec 32 :=
  ((s.pktBufAddr &&& 0x3FFFFFFF) ||| 0x40000000) + (bufId <<< 11)

/-- `REG32(addr) = v` -/
def RxdState.write (s : RxdState T) (addr v : BitVec 32) : RxdState T :=
  { s with mem := Function.update s.mem addr v }

/-- `buf_id_return` -/
def RxdState.bufIdReturn (s : RxdState T) (id : BitVec 16) : RxdState T :=
  { s with returned := s.returned ++ [id] }

/-- Change the counters. -/
def RxdState.count (s : RxdState T) (f : RxdDbg → RxdDbg) : RxdState T :=
  { s with dbg := f s.dbg }

/-! ## The packet queues -/

/-- Write the entry at the write index of a packet queue and move on. -/
def RxdState.txqStore (s : RxdState T) (band : Band) (e : QEntry) : RxdState T :=
  { s with
    txqCell := Function.update s.txqCell band
      (Function.update (s.txqCell band) (s.txqWidx band) e)
    txqWidx := Function.update s.txqWidx band (txqNext (s.txqWidx band)) }

/-- Write the entry at the write index of a multi-segment queue and move
    on. -/
def RxdState.msegStore (s : RxdState T) (band : Band) (e : MsegCell) : RxdState T :=
  let idx := s.msegWidx band
  { s with
    msegCell := Function.update s.msegCell band (Function.update (s.msegCell band) idx e)
    msegWidx := Function.update s.msegWidx band
      (if idx + 1 = eagleMsegEntries then 0 else idx + 1) }

/-- `eagle_pkt_enqueue`, and whether it refused. -/
def eaglePktEnqueue (s : RxdState T) (bufId : BitVec 32) (segLen wcid : BitVec 16)
    (info : BitVec 8) (dst : ℕ) (flags : BitVec 8) (pktLen : BitVec 16) : RxdState T × Bool :=
  let band := queueBand dst
  if pktLen = segLen then
    if (s.txqCell band (s.txqWidx band)).busy then (s, true)
    else
      let s := s.txqStore band {
        bufId := bufId.toNat
        wcid := wcid.toNat
        segLen := segLen.toNat
        pktLen := pktLen.toNat
        flags := (flags ||| 1).toNat
        info := info.toNat }
      (s.count fun d => { d with rxq := d.rxq + 1 }, false)
  else
    if (s.msegCell band (s.msegWidx band)).flags &&& 1 ≠ 0 then (s, true)
    else
      let s := s.msegStore band {
        bufId := bufId.toNat
        segLen := segLen.toNat
        pktLen := pktLen.toNat
        flags := (flags ||| 1).toNat }
      (s.count fun d => { d with rxq := d.rxq + 1 }, false)

/-- `eagle_txq1_put`, and whether it refused. -/
def eagleTxq1Put (s : RxdState T) (bufId : BitVec 32) (len : BitVec 16) : RxdState T × Bool :=
  if (s.txqCell .band1 (s.txqWidx .band1)).flags &&& 1 = 0 then
    let s := s.txqStore .band1 {
      bufId := bufId.toNat
      wcid := 0
      segLen := len.toNat
      pktLen := len.toNat
      flags := 3
      info := 0 }
    (s.count fun d => { d with rxq := d.rxq + 1 }, false)
  else (s, true)

/-! ## The handlers -/

/-- `tdma_tx_submit(token, len, addr, flags)`, and whether it refused. -/
abbrev Submit (T : Type*) := T → BitVec 16 → BitVec 32 → BitVec 32 → BitVec 32 → T × Bool

/-- Send a frame to the wired side; a refusal drops it. -/
def RxdState.submit (submit : Submit T) (s : RxdState T) (bufId : BitVec 16)
    (len addr : BitVec 32) : RxdState T :=
  let r := submit s.tdma bufId len addr 0
  let s := { s with tdma := r.1 }
  if r.2 then (s.count fun d => { d with rxdrop := d.rxdrop + 1 }).bufIdReturn bufId else s

/-- A refused enqueue drops the frame. -/
def RxdState.dropIf (r : RxdState T × Bool) (bufId : BitVec 16) : RxdState T :=
  if r.2 then (r.1.count fun d => { d with rxdrop := d.rxdrop + 1 }).bufIdReturn bufId else r.1

/-- The index behind a descriptor. -/
def rxdNext (ridx : ℕ) : ℕ := if ridx + 1 ≥ 1536 then 0 else ridx + 1

/-- The label `done` of both handlers: every 128 descriptors the ring
    goes back to the chip. The kick is an `s8`. -/
def RxdState.finish (s : RxdState T) (next : ℕ) : RxdState T :=
  let kick := s.kick + 1
  let s := { s with ridx := next, kick := kick }
  if kick.toInt < 0 then
    let cidx := if next ≠ 0 then next - 1 else eagleRxRingMaxIdx
    if s.emiCidxValid = 1 then { s with emiCidx := cidx, kick := 0 }
    else { s with pcieCidx := cidx, kick := 0 }
  else s

/-- The chip's generation wraps at the last descriptor. -/
def RxdState.turn (s : RxdState T) : RxdState T :=
  if s.ridx = eagleRxRingMaxIdx then { s with gen := (s.gen + 1) % 16 } else s

/-- The error bits after a look at the ICV error table, and the second
    descriptor word. -/
def RxdState.icvCheck (s : RxdState T) (buf err dw2 : BitVec 32) : BitVec 32 × BitVec 32 :=
  if err &&& 3 ≠ 0 then
    let rxd := buf + eaglePktHeadroom
    let wcid := s.mem (rxd + 4) &&& 0xFFFFF
    let tid := (s.mem (rxd + 16) >>> 3) &&& 0xF
    if s.icvErrTable ≠ 0 ∧ s.mem (s.icvErrTable + 4 * wcid) &&& ((1 : BitVec 32) <<< tid) ≠ 0 then
      (0, dw2 &&& ~~~0x80)
    else (err, dw2)
  else (err, dw2)

/-- Count what kept a frame off the wired side. -/
def RxdDbg.hint (d : RxdDbg) (err dw2 info : BitVec 32) : RxdDbg :=
  if err ≠ 0 then { d with rxhErr := d.rxhErr + 1 }
  else if dw2 &&& 0x80 ≠ 0 then { d with rxhFlag := d.rxhFlag + 1 }
  else if info &&& 2 = 0 then { d with rxhRaw := d.rxhRaw + 1 }
  else d

/-- A whole frame in one buffer. -/
def handleWhole (submit : Submit T) (s : RxdState T) (buf info err dw2 : BitVec 32)
    (bufId : BitVec 16) : RxdState T :=
  let segLen := (info >>> 3) &&& 0x3FFF#32
  let icv := s.icvCheck buf err dw2
  let s := s.write buf info
  let s := s.count fun d => d.hint icv.1 icv.2 info
  let queue (s : RxdState T) :=
    RxdState.dropIf (eaglePktEnqueue s (bufId.setWidth 32) (segLen.setWidth 16) 0 0 1 2
      (segLen.setWidth 16)) bufId
  if icv.1 = 0 ∧ s.forceToCpu = 0 ∧ icv.2 &&& 0x80 = 0 then
    if info &&& 2 ≠ 0 then
      let off := (info >>> 16) &&& 0xFE#32
      let s := s.count fun d => { d with rxfast := d.rxfast + 1 }
      s.submit submit bufId ((segLen - off) &&& 0xFFFF) (buf + eaglePktHeadroom + off)
    else queue s
  else queue s

/-- The loop that queues the segments of a complete chain. -/
def emitSegs (count : ℕ) : ℕ → RxdState T → RxdState T
  | 0, s => s
  | left + 1, s =>
    let i := count - (left + 1)
    let r := eaglePktEnqueue s ((s.chain.bufid i).setWidth 32) (s.chain.seglen.setWidth 16) 0 0 1
      (segFlags count i) (s.chain.len i)
    emitSegs count left (if r.2 then r.1.bufIdReturn (s.chain.bufid i) else r.1)

/-- A descriptor of a chained frame: the state and whether the chain goes
    on. -/
def handleChained (s : RxdState T) (buf info : BitVec 32) (bufId : BitVec 16) (chaining : Bool) :
    RxdState T × Bool :=
  let s := if chaining then s
    else { s.write buf info with chain := ⟨false, 0, 0, fun _ => 0, fun _ => 0⟩ }
  if s.chain.abort then (s.bufIdReturn bufId, true)
  else
    let segLen := (info >>> 3) &&& 0x3FFF#32
    let c := s.chain
    let s := { s.count (fun d => { d with rxseg := d.rxseg + 1 }) with
      chain := { c with
        len := Function.update c.len c.segs (segLen.setWidth 16)
        bufid := Function.update c.bufid c.segs bufId
        seglen := c.seglen + segLen
        segs := c.segs + 1 } }
    if info &&& 1 ≠ 0 then
      if s.chain.segs > eagleMsegMax - 1 then
        ({ s with chain := { s.chain with abort := true }
                  returned := s.returned ++ (List.range eagleMsegMax).map s.chain.bufid }, true)
      else (s, true)
    else
      let count := min s.chain.segs eagleMsegMax
      let head := s.bufUncached ((s.chain.bufid 0).setWidth 32)
      let s := s.write head ((s.mem head &&& 0xFFFE0007) ||| (8 * s.chain.seglen))
      (emitSegs count count s, false)

/-- `eagle_rxdmad_handle`: the state, `*chaining` and the answer, 1 while
    the ring is empty. The sampled dump of a frame while printing counts
    in `rxbig`; the wait on core 2 changes no state. -/
def eagleRxdmadHandle (submit : Submit T) (s : RxdState T) (chaining : Bool) :
    RxdState T × Bool × ℕ :=
  let d := s.desc s.ridx
  if (d.dw3 >>> 28).toNat ≠ s.gen then (s, chaining, 1)
  else
    let next := rxdNext s.ridx
    let s := (s.count fun d => { d with rxd := d.rxd + 1 }).turn
    let bufId := (d.dw2 >>> 16).setWidth 16
    let buf := s.bufUncached (bufId.setWidth 32)
    let info := rxdInfo d.dw1 d.dw2
    let err := rxdErr d.dw1 d.dw2
    let s := if s.printing ∧ 200 < ((d.dw1 >>> 16) &&& 0x3FFF#32).toNat ∧ s.dbg.rxbig.toNat < 4 then
        s.count fun d => { d with rxbig := d.rxbig + 1 }
      else s
    if info &&& 1 = 0 ∧ chaining = false then
      ((handleWhole submit s buf info err d.dw2 bufId).finish next, chaining, 0)
    else if info &&& 1 = 0 ∧ s.chain.abort then
      let s := s.bufIdReturn bufId
      ({ s with chain := { s.chain with abort := false } }.finish next, false, 0)
    else
      let r := handleChained s buf info bufId chaining
      (r.1.finish next, r.2, 0)

/-- `eagle_rxdmad_fast`: the state and the answer, 0 done, 1 ring empty,
    2 not this kind. -/
def eagleRxdmadFast (submit : Submit T) (s : RxdState T) : RxdState T × ℕ :=
  let d := s.desc s.ridx
  let dw1 := d.dw1
  let dw2 := d.dw2
  if (d.dw3 >>> 28).toNat ≠ s.gen then (s, 1)
  else if dw1 &&& 0x40002000 ≠ 0x40000000 ∨ dw2 &&& 0xF000 = 0x1000 ∨
      dw2 &&& 0xF000 = 0x2000 ∨ s.printing then (s, 2)
  else
    let next := rxdNext s.ridx
    let s := (s.count fun d => { d with rxd := d.rxd + 1 }).turn
    let bufId := (dw2 >>> 16).setWidth 16
    let buf := s.bufUncached (bufId.setWidth 32)
    let len := (dw1 >>> 16) &&& 0x3FFF#32
    let info := (len <<< 3) ||| ((dw2 >>> 12) <<< 28)
    let host := (dw2 &&& 0x80) ||| s.forceToCpu.setWidth 32
    let queue (s : RxdState T) :=
      RxdState.dropIf (eagleTxq1Put s (bufId.setWidth 32) (len.setWidth 16)) bufId
    if dw1 &&& 0x1800 = 0x800 then
      let s := s.write buf (info ||| 2#32 ||| ((dw1 &&& 0x7F) <<< 17))
      if host = 0 then
        let off := (dw1 &&& 0x7F) <<< 1
        let s := s.count fun d => { d with rxfast := d.rxfast + 1 }
        let s := s.submit submit bufId ((len - off) &&& 0xFFFF) (buf + eaglePktHeadroom + off)
        (s.finish next, 0)
      else ((queue s).finish next, 0)
    else ((queue (s.write buf info)).finish next, 0)

/-! ## Descriptor words -/

section Words

variable {dw1 dw2 : BitVec 32}

/-- Bit 30 is set and bit 13 clear. -/
theorem bits_of_common (h : dw1 &&& 0x40002000 = 0x40000000) :
    dw1.getLsbD 30 = true ∧ dw1[13] = false := by
  have h30 := congrArg (fun x : BitVec 32 => x.getLsbD 30) h
  have h13 := congrArg (fun x : BitVec 32 => x.getLsbD 13) h
  exact ⟨by simpa using h30, by simpa using h13⟩

theorem last_of_common (h : dw1 &&& 0x40002000 = 0x40000000) :
    ((dw1 >>> 30) &&& 1) ^^^ 1 = 0 := by
  obtain ⟨h30, -⟩ := bits_of_common h
  apply BitVec.eq_of_getLsbD_eq
  intro i hi
  interval_cases i <;> simp [h30]

theorem noErr_of_common (h : dw1 &&& 0x40002000 = 0x40000000) : dw1 &&& 0x2000 = 0 := by
  obtain ⟨-, h13⟩ := bits_of_common h
  apply BitVec.eq_of_getLsbD_eq
  intro i hi
  interval_cases i <;> simp [h13]

theorem rxdErr_of_common (h : dw1 &&& 0x40002000 = 0x40000000) (h1 : dw2 &&& 0xF000 ≠ 0x1000)
    (h2 : dw2 &&& 0xF000 ≠ 0x2000) : rxdErr dw1 dw2 = 0 := by
  unfold rxdErr
  simp only [noErr_of_common h, ne_eq, not_true_eq_false, if_false, h1, h2]

/-- The info word of a frame for the wired side. -/
theorem rxdInfo_of_dst (h : dw1 &&& 0x40002000 = 0x40000000) (hdst : dw1 &&& 0x1800 = 0x800) :
    rxdInfo dw1 dw2 =
      ((((dw1 >>> 16) &&& 0x3FFF#32) <<< 3) ||| ((dw2 >>> 12) <<< 28)) ||| 2#32 |||
        ((dw1 &&& 0x7F) <<< 17) := by
  unfold rxdInfo
  simp only [last_of_common h, noErr_of_common h, hdst, if_true, ne_eq, not_true_eq_false, if_false]
  apply BitVec.eq_of_getLsbD_eq
  intro i hi
  interval_cases i <;> simp

/-- The info word of any other whole frame. -/
theorem rxdInfo_of_not_dst (h : dw1 &&& 0x40002000 = 0x40000000)
    (hdst : dw1 &&& 0x1800 ≠ 0x800) :
    rxdInfo dw1 dw2 = (((dw1 >>> 16) &&& 0x3FFF#32) <<< 3) ||| ((dw2 >>> 12) <<< 28) := by
  unfold rxdInfo
  simp only [last_of_common h, noErr_of_common h, hdst, ne_eq, not_true_eq_false, if_false]
  apply BitVec.eq_of_getLsbD_eq
  intro i hi
  interval_cases i <;> simp

/-- What the handler reads out of the info word again. -/
theorem info_fields (x y z : BitVec 32) :
    let info :=
      (((x &&& 0x3FFF#32) <<< 3) ||| ((y >>> 12) <<< 28)) ||| 2#32 ||| ((z &&& 0x7F) <<< 17)
    info &&& 1 = 0 ∧ info &&& 2 ≠ 0 ∧ (info >>> 3) &&& 0x3FFF#32 = x &&& 0x3FFF#32 ∧
      (info >>> 16) &&& 0xFE#32 = (z &&& 0x7F) <<< 1 := by
  intro info
  refine ⟨?_, ?_, ?_, ?_⟩
  · apply BitVec.eq_of_getLsbD_eq
    intro i hi
    interval_cases i <;> simp [info]
  · intro hzero
    have hbit := congrArg (fun v : BitVec 32 => v.getLsbD 1) hzero
    simp [info] at hbit
  · apply BitVec.eq_of_getLsbD_eq
    intro i hi
    interval_cases i <;> simp [info]
  · apply BitVec.eq_of_getLsbD_eq
    intro i hi
    interval_cases i <;> simp [info]

theorem info_fields_plain (x y : BitVec 32) :
    let info := ((x &&& 0x3FFF#32) <<< 3) ||| ((y >>> 12) <<< 28)
    info &&& 1 = 0 ∧ info &&& 2 = 0 ∧ (info >>> 3) &&& 0x3FFF#32 = x &&& 0x3FFF#32 := by
  intro info
  refine ⟨?_, ?_, ?_⟩
  · apply BitVec.eq_of_getLsbD_eq
    intro i hi
    interval_cases i <;> simp [info]
  · apply BitVec.eq_of_getLsbD_eq
    intro i hi
    interval_cases i <;> simp [info]
  · apply BitVec.eq_of_getLsbD_eq
    intro i hi
    interval_cases i <;> simp [info]

/-- The two reasons to send a frame to the host, tested in one word. -/
theorem host_eq_zero (force : BitVec 8) :
    (dw2 &&& 0x80) ||| force.setWidth 32 = 0 ↔ force = 0 ∧ dw2 &&& 0x80 = 0 := by
  show (_ : BitVec 32) = 0#32 ↔ _
  rw [BitVec.or_eq_zero_iff, and_comm]
  have hforce : force.setWidth 32 = 0 ↔ force = 0 := by
    constructor
    · intro h
      have hback := congrArg (fun v : BitVec 32 => v.setWidth 8) h
      simpa using hback
    · rintro rfl
      rfl
  exact and_congr hforce Iff.rfl

end Words

/-! ## The counters apart -/

variable {s : RxdState T} {submit : Submit T} {id : BitVec 16}

/-- The state without the counters only the full handler keeps. -/
def RxdState.forget (s : RxdState T) : RxdState T :=
  s.count fun d => { d with rxhErr := 0, rxhFlag := 0, rxhRaw := 0 }

theorem submit_forget (len addr : BitVec 32) :
    s.forget.submit submit id len addr = (s.submit submit id len addr).forget := by
  unfold RxdState.submit
  have hsame : s.forget.tdma = s.tdma := rfl
  rw [hsame]
  by_cases h : (submit s.tdma id len addr 0).2 = true
  · rw [if_pos h, if_pos h]
    rfl
  · rw [if_neg h, if_neg h]
    rfl

theorem txq1Put_forget (bufId : BitVec 32) (len : BitVec 16) :
    eagleTxq1Put s.forget bufId len =
      ((eagleTxq1Put s bufId len).1.forget, (eagleTxq1Put s bufId len).2) := by
  unfold eagleTxq1Put
  have hsame : (s.forget.txqCell .band1 (s.forget.txqWidx .band1)) =
      s.txqCell .band1 (s.txqWidx .band1) := rfl
  rw [hsame]
  split
  · rfl
  · rfl

theorem dropIf_forget (r : RxdState T × Bool) :
    RxdState.dropIf (r.1.forget, r.2) id = (RxdState.dropIf r id).forget := by
  unfold RxdState.dropIf
  cases r.2
  · rfl
  · rfl

theorem finish_forget (next : ℕ) : s.forget.finish next = (s.finish next).forget := by
  unfold RxdState.finish
  have hkick : s.forget.kick = s.kick := rfl
  have hemi : s.forget.emiCidxValid = s.emiCidxValid := rfl
  simp only [hkick, hemi]
  split_ifs <;> rfl

/-- The queue's two functions put a whole frame in the same way. -/
theorem pktEnqueue_eq_txq1Put (bufId : BitVec 32) (len : BitVec 16) :
    eaglePktEnqueue s bufId len 0 0 1 2 len = eagleTxq1Put s bufId len := by
  have hband : queueBand 1 = .band1 := rfl
  unfold eaglePktEnqueue eagleTxq1Put
  simp only [hband, if_true]
  by_cases h : (s.txqCell .band1 (s.txqWidx .band1)).flags &&& 1 = 0
  · have hbusy : (s.txqCell .band1 (s.txqWidx .band1)).busy = false := by
      unfold QEntry.busy
      rw [h]
      rfl
    rw [if_pos h, hbusy]
    rfl
  · have hbusy : (s.txqCell .band1 (s.txqWidx .band1)).busy = true := decide_eq_true h
    rw [if_neg h, hbusy]
    rfl

/-! ## The fast path against the full handler -/

/-- Both handlers answer the same and leave the same state, the three
    counters apart; no chain is opened. -/
structure FastAgrees (submit : Submit T) (s : RxdState T) : Prop where
  answer : (eagleRxdmadHandle submit s false).2.2 = (eagleRxdmadFast submit s).2
  chaining : (eagleRxdmadHandle submit s false).2.1 = false
  state : (eagleRxdmadHandle submit s false).1.forget = (eagleRxdmadFast submit s).1.forget

/-- A whole frame without an error, as both handlers treat it once the
    info word is written. -/
def RxdState.forward (submit : Submit T) (s : RxdState T) (buf info dw2 : BitVec 32)
    (bufId : BitVec 16) : RxdState T :=
  let segLen := (info >>> 3) &&& 0x3FFF#32
  let s := s.write buf info
  if (s.forceToCpu = 0 ∧ dw2 &&& 0x80 = 0) ∧ info &&& 2 ≠ 0 then
    let off := (info >>> 16) &&& 0xFE#32
    (s.count fun d => { d with rxfast := d.rxfast + 1 }).submit submit bufId
      ((segLen - off) &&& 0xFFFF) (buf + eaglePktHeadroom + off)
  else RxdState.dropIf (eagleTxq1Put s (bufId.setWidth 32) (segLen.setWidth 16)) bufId

/-- The handler's whole frame without an error. -/
theorem handleWhole_forget (buf info dw2 : BitVec 32) :
    (handleWhole submit s buf info 0 dw2 id).forget =
      (s.forward submit buf info dw2 id).forget := by
  have hicv : s.icvCheck buf 0 dw2 = (0, dw2) := by
    unfold RxdState.icvCheck
    rw [if_neg (by decide)]
  -- a counter of the handler's own does not show
  have hhint : ((s.write buf info).count fun d => d.hint 0 dw2 info).forget =
      (s.write buf info).forget := by
    unfold RxdDbg.hint
    split_ifs <;> rfl
  have hqueue (t : RxdState T) (len : BitVec 16) :
      (RxdState.dropIf (eagleTxq1Put t (id.setWidth 32) len) id).forget =
        RxdState.dropIf (eagleTxq1Put t.forget (id.setWidth 32) len) id := by
    rw [txq1Put_forget, dropIf_forget]
  have hfast (t : RxdState T) : (t.count fun d => { d with rxfast := d.rxfast + 1 }).forget =
      t.forget.count fun d => { d with rxfast := d.rxfast + 1 } := rfl
  have hforce (f : RxdDbg → RxdDbg) : ((s.write buf info).count f).forceToCpu = s.forceToCpu := rfl
  have hforce' : (s.write buf info).forceToCpu = s.forceToCpu := rfl
  unfold handleWhole RxdState.forward
  simp only [hicv, hforce, hforce', true_and, pktEnqueue_eq_txq1Put]
  by_cases hhost : s.forceToCpu = 0 ∧ dw2 &&& 0x80 = 0
  · by_cases hdst : info &&& 2 ≠ 0
    · rw [if_pos hhost, if_pos hdst, if_pos ⟨hhost, hdst⟩, ← submit_forget, ← submit_forget, hfast,
        hfast, hhint]
    · rw [if_pos hhost, if_neg hdst, if_neg (fun h => hdst h.2), hqueue, hqueue, hhint]
  · rw [if_neg hhost, if_neg (fun h => hhost h.1), hqueue, hqueue, hhint]

/-- The fast path on a descriptor it takes. -/
theorem fast_of_common (submit : Submit T) {dw1 dw2 dw3 : BitVec 32}
    (hdesc : s.desc s.ridx = ⟨dw1, dw2, dw3⟩)
    (hgen : (dw3 >>> 28).toNat = s.gen) (h : dw1 &&& 0x40002000 = 0x40000000)
    (h1 : dw2 &&& 0xF000 ≠ 0x1000) (h2 : dw2 &&& 0xF000 ≠ 0x2000) (hprint : s.printing = false) :
    let base := (s.count fun d => { d with rxd := d.rxd + 1 }).turn
    let bufId := (dw2 >>> 16).setWidth 16
    eagleRxdmadFast submit s =
      ((base.forward submit (base.bufUncached (bufId.setWidth 32)) (rxdInfo dw1 dw2) dw2
        bufId).finish (rxdNext s.ridx), 0) := by
  intro base bufId
  have hcommon : ¬(dw1 &&& 0x40002000 ≠ 0x40000000 ∨ dw2 &&& 0xF000 = 0x1000 ∨
      dw2 &&& 0xF000 = 0x2000 ∨ s.printing = true) := by
    rintro (hc | hc | hc | hc)
    · exact hc h
    · exact h1 hc
    · exact h2 hc
    · rw [hprint] at hc
      cases hc
  have hgen' : ¬(dw3 >>> 28).toNat ≠ s.gen := not_not.mpr hgen
  have hforce (buf info : BitVec 32) : (base.write buf info).forceToCpu = base.forceToCpu := rfl
  unfold eagleRxdmadFast RxdState.forward
  simp only [hdesc]
  rw [if_neg hgen', if_neg hcommon]
  by_cases hdst : dw1 &&& 0x1800 = 0x800
  · obtain ⟨-, hbit, hlen, hoff⟩ := info_fields (dw1 >>> 16) dw2 dw1
    rw [if_pos hdst, rxdInfo_of_dst h hdst]
    simp only [hlen, hoff, hforce]
    by_cases hhost : base.forceToCpu = 0 ∧ dw2 &&& 0x80 = 0
    · rw [if_pos ((host_eq_zero _).mpr hhost), if_pos ⟨hhost, hbit⟩]
    · rw [if_neg (fun hz => hhost ((host_eq_zero _).mp hz)), if_neg (fun hz => hhost hz.1)]
  · obtain ⟨-, hbit, hlen⟩ := info_fields_plain (dw1 >>> 16) dw2
    rw [if_neg hdst, rxdInfo_of_not_dst h hdst]
    simp only [hlen]
    rw [if_neg (fun hz => hz.2 hbit)]

/-- Bit 0 of the info word: the descriptor is a frame's last. -/
theorem info_last {dw1 dw2 : BitVec 32} (h : dw1 &&& 0x40002000 = 0x40000000) :
    rxdInfo dw1 dw2 &&& 1 = 0 := by
  by_cases hdst : dw1 &&& 0x1800 = 0x800
  · rw [rxdInfo_of_dst h hdst]
    exact (info_fields (dw1 >>> 16) dw2 dw1).1
  · rw [rxdInfo_of_not_dst h hdst]
    exact (info_fields_plain (dw1 >>> 16) dw2).1

/-- The full handler on a descriptor the fast path takes. -/
theorem handle_of_common (submit : Submit T) {dw1 dw2 dw3 : BitVec 32}
    (hdesc : s.desc s.ridx = ⟨dw1, dw2, dw3⟩)
    (hgen : (dw3 >>> 28).toNat = s.gen) (h : dw1 &&& 0x40002000 = 0x40000000)
    (h1 : dw2 &&& 0xF000 ≠ 0x1000) (h2 : dw2 &&& 0xF000 ≠ 0x2000) (hprint : s.printing = false) :
    let base := (s.count fun d => { d with rxd := d.rxd + 1 }).turn
    let bufId := (dw2 >>> 16).setWidth 16
    eagleRxdmadHandle submit s false =
      ((handleWhole submit base (base.bufUncached (bufId.setWidth 32)) (rxdInfo dw1 dw2) 0 dw2
        bufId).finish (rxdNext s.ridx), false, 0) := by
  intro base bufId
  have hgen' : ¬(dw3 >>> 28).toNat ≠ s.gen := not_not.mpr hgen
  have hquiet : base.printing = false := by
    show (RxdState.turn _).printing = false
    unfold RxdState.turn
    split <;> exact hprint
  have hdump : ¬(base.printing = true ∧ 200 < ((dw1 >>> 16) &&& 0x3FFF#32).toNat ∧
      base.dbg.rxbig.toNat < 4) := by
    rw [hquiet]
    rintro ⟨hc, -⟩
    cases hc
  unfold eagleRxdmadHandle
  simp only [hdesc]
  rw [if_neg hgen', rxdErr_of_common h h1 h2, if_neg hdump, if_pos ⟨info_last h, trivial⟩]

/-- Whatever the fast path takes, the full handler treats the same. -/
theorem fast_agrees (submit : Submit T) (s : RxdState T) (h : (eagleRxdmadFast submit s).2 ≠ 2) :
    FastAgrees submit s := by
  obtain ⟨dw1, dw2, dw3, hdesc⟩ : ∃ dw1 dw2 dw3, s.desc s.ridx = ⟨dw1, dw2, dw3⟩ :=
    ⟨_, _, _, rfl⟩
  by_cases hgen : (dw3 >>> 28).toNat = s.gen
  · by_cases hcommon : dw1 &&& 0x40002000 ≠ 0x40000000 ∨ dw2 &&& 0xF000 = 0x1000 ∨
        dw2 &&& 0xF000 = 0x2000 ∨ s.printing = true
    · -- another kind
      exfalso
      apply h
      unfold eagleRxdmadFast
      simp only [hdesc]
      rw [if_neg (not_not.mpr hgen), if_pos hcommon]
    · rw [not_or, not_or, not_or, not_not, Bool.not_eq_true] at hcommon
      obtain ⟨hbits, h1, h2, hprint⟩ := hcommon
      have hfast := fast_of_common submit hdesc hgen hbits h1 h2 hprint
      have hhandle := handle_of_common submit hdesc hgen hbits h1 h2 hprint
      refine ⟨?_, ?_, ?_⟩
      · rw [hfast, hhandle]
      · rw [hhandle]
      · rw [hfast, hhandle]
        simp only
        rw [← finish_forget, handleWhole_forget, finish_forget]
  · -- the ring is empty
    have hfast : eagleRxdmadFast submit s = (s, 1) := by
      unfold eagleRxdmadFast
      simp only [hdesc]
      rw [if_pos hgen]
    have hhandle : eagleRxdmadHandle submit s false = (s, false, 1) := by
      unfold eagleRxdmadHandle
      simp only [hdesc]
      rw [if_pos hgen]
    refine ⟨?_, ?_, ?_⟩
    · rw [hfast, hhandle]
    · rw [hhandle]
    · rw [hfast, hhandle]

/-- A ring whose descriptors are frames of 100 bytes for the wired side,
    over a TDMA ring that takes every frame. -/
def wiredFrames : RxdState Unit where
  desc := fun _ => ⟨0x40640807, 0x00050000, 0⟩
  ridx := 1535
  gen := 0
  kick := 127
  emiCidxValid := 0
  emiCidx := 0
  pcieCidx := 0
  pktBufAddr := 0x88000000
  mem := fun _ => 0
  icvErrTable := 0
  forceToCpu := 0
  printing := false
  txqCell := fun _ _ => ⟨0xFFFFFFFF, 0, 0, 0, 0, 0⟩
  txqWidx := fun _ => 0
  msegCell := fun _ _ => ⟨0xFFFFFFFF, 0, 0, 0⟩
  msegWidx := fun _ => 0
  tdma := ()
  returned := []
  chain := ⟨false, 0, 0, fun _ => 0, fun _ => 0⟩
  dbg := ⟨0, 0, 0, 0, 0, 0, 0, 0, 0⟩

theorem fast_agrees_wired : FastAgrees (fun _ _ _ _ _ => ((), false)) wiredFrames :=
  fast_agrees _ wiredFrames (by decide)

end ClankerNPU.EagleRx.Fast
