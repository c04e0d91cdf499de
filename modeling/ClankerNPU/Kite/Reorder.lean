import ClankerNPU.Lib.IndexRing
import ClankerNPU.Words
import Mathlib.Data.Prod.Basic

/-! # The kite reorder engine

    `npu_wifi_ba.c`, the classifier of `npu_wifi_rx.c` and the BA mails
    of `npu_wifi_init.c`. Each BA entry is the head of a linked list of
    36-byte nodes, one for each held MPDU; the further MSDUs of an
    A-MSDU hang off their MPDU's node in a list of their own. Every
    operation is atomic here. The loops carry fuel, two passes more than
    there are nodes.

    Counters, prints and the locks are left out. `outs` records, in
    order, what the operations hand to `pkt_enqueue_bridge` and to
    `buf_id_free`. -/

namespace ClankerNPU.Kite

/-! ## Data -/

/-- `REORDER_PRI_POOL_SIZE` -/
def reorderPriPoolSize : ℕ := 2000

/-- `REORDER_SEC_POOL_SIZE` -/
def reorderSecPoolSize : ℕ := 5000

/-- The passes a loop over the nodes is given. -/
def nodeFuel : ℕ := reorderPriPoolSize + reorderSecPoolSize + 2

/-- The pool a node belongs to. -/
inductive Pool where
  | pri
  | sec
  deriving DecidableEq, Repr

/-- A node's address: its pool's base and its index there. -/
structure NodeRef where
  pool : Pool
  idx : ℕ
  deriving DecidableEq, Repr

/-- The fields `kite_rx_parse` fills in a `struct kite_node`. -/
structure KiteFrame where
  hdr : ℕ
  tid : ℕ
  wcid : ℕ
  bss : ℕ
  bufId : ℕ
  sn : ℕ
  len : ℕ
  amsdu : ℕ
  deriving DecidableEq, Repr

/-- A reorder node. -/
structure KiteNode extends KiteFrame where
  next : Option NodeRef
  msduHead : Option NodeRef
  msduTail : Option NodeRef
  msduCnt : ℕ
  idx : ℕ
  pool : Pool
  tick : ℕ

/-- A BA entry: whether it lies in `ba_table_b`, and its number there,
    `8 * (wcid - 1) + tid`. An 8-bit WCID and a 4-bit TID stay below 2048. -/
abbrev BaKey := Bool × Fin 2048

/-- The words of a BA entry besides its list. -/
structure BaCtl where
  /-- the held MPDU whose further MSDUs are expected -/
  chain : Option NodeRef
  win : ℕ
  last : ℕ
  ref : ℕ
  amsdu : ℕ
  flag : ℕ
  state : ℕ
  band : ℕ
  deriving DecidableEq, Repr

/-- A BA entry. -/
structure BaEntry extends BaCtl where
  head : Option NodeRef
  tail : Option NodeRef
  count : ℕ

/-- What leaves the reorder engine. -/
inductive Out where
  /-- `pkt_enqueue_bridge`; `origin` records the entry and the sequence number -/
  | bridge (origin : Option (BaKey × ℕ)) (bufId len hdr band bss : ℕ)
  /-- `buf_id_free` -/
  | free (band bufId : ℕ)
  deriving DecidableEq, Repr

/-- The nodes, their two pools and the BA tables. -/
structure BaState where
  node : NodeRef → KiteNode
  pri : IndexRing
  sec : IndexRing
  entry : BaKey → BaEntry
  outs : List Out

/-- `x & 0x800` is set -/
def bit11 (x : ℤ) : Prop := 2048 ≤ x % 4096

instance (x : ℤ) : Decidable (bit11 x) := inferInstanceAs (Decidable (_ ≤ _))

namespace BaState

def emit (s : BaState) (o : Out) : BaState := { s with outs := s.outs ++ [o] }

def setNode (s : BaState) (r : NodeRef) (n : KiteNode) : BaState :=
  { s with node := Function.update s.node r n }

def setEntry (s : BaState) (k : BaKey) (e : BaEntry) : BaState :=
  { s with entry := Function.update s.entry k e }

/-- Write an entry's words other than its list. -/
def setCtl (s : BaState) (k : BaKey) (c : BaCtl) : BaState :=
  s.setEntry k { s.entry k with toBaCtl := c }

end BaState

/-! ## Reorder nodes -/

/-- `reorder_node_free` -/
def reorderNodeFree (s : BaState) (idx : ℕ) : Pool → BaState
  | .pri => { s with pri := s.pri.give reorderPriPoolSize idx }
  | .sec => { s with sec := s.sec.give reorderSecPoolSize idx }

/-- `reorder_node_alloc` -/
def reorderNodeAlloc (s : BaState) : Option (NodeRef × BaState) :=
  match s.pri.take reorderPriPoolSize with
  | some (i, pri) => some (⟨.pri, i⟩, { s with pri := pri })
  | none =>
    match s.sec.take reorderSecPoolSize with
    | some (i, sec) => some (⟨.sec, i⟩, { s with sec := sec })
    | none => none

/-! ## Releases -/

/-- `pkt_enqueue_bridge` of a frame of entry `k` -/
def bridgeOut (k : BaKey) (f : KiteFrame) (band bss : ℕ) : Out :=
  .bridge (some (k, f.sn)) f.bufId f.len f.hdr band bss

/-- `ba_pop_mpdu` -/
def baPopMpdu (s : BaState) (k : BaKey) (mpdu : NodeRef) : BaState :=
  let e := s.entry k
  let next := (s.node mpdu).next
  s.setEntry k { e with
    count := u16 ((e.count : ℤ) - 1)
    head := next
    tail := if next = none then none else e.tail }

/-- The loop of `ba_release_mpdu` over the MSDUs. -/
def baReleaseMsdus (k : BaKey) (mpdu : NodeRef) (band : ℕ) : ℕ → BaState → BaState
  | 0, s => s
  | fuel + 1, s =>
    match (s.node mpdu).msduHead with
    | none => s
    | some msdu =>
      let m := s.node mpdu
      let sub := s.node msdu
      let s := s.setNode mpdu { m with
        msduCnt := u16 ((m.msduCnt : ℤ) - 1)
        msduHead := sub.next
        msduTail := if sub.next = none then none else m.msduTail }
      let s := s.emit (bridgeOut k sub.toKiteFrame band m.bss)
      baReleaseMsdus k mpdu band fuel (reorderNodeFree s sub.idx sub.pool)

/-- `ba_release_mpdu` -/
def baReleaseMpdu (s : BaState) (k : BaKey) (mpdu : NodeRef) (band : ℕ) : BaState :=
  let m := s.node mpdu
  let s := s.emit (bridgeOut k m.toKiteFrame band m.bss)
  let s := baReleaseMsdus k mpdu band nodeFuel s
  reorderNodeFree s (s.node mpdu).idx (s.node mpdu).pool

/-- The loop of `ba_flush_entry`. -/
def baFlushLoop (k : BaKey) (band : ℕ) : ℕ → BaState → BaState
  | 0, s => s
  | fuel + 1, s =>
    match (s.entry k).head with
    | none => s
    | some mpdu =>
      let s := baPopMpdu s k mpdu
      let s := s.setCtl k { (s.entry k).toBaCtl with last := (s.node mpdu).sn }
      baFlushLoop k band fuel (baReleaseMpdu s k mpdu band)

/-- `ba_flush_entry` -/
def baFlushEntry (s : BaState) (k : BaKey) : BaState :=
  let s := baFlushLoop k (s.entry k).band nodeFuel s
  s.setCtl k { (s.entry k).toBaCtl with chain := none }

/-- A held sequence number is past `seq`. -/
def pastSeq (sn seq : ℕ) : Prop := sn ≠ seq ∧ ¬bit11 ((sn : ℤ) - seq)

instance (sn seq : ℕ) : Decidable (pastSeq sn seq) := inferInstanceAs (Decidable (_ ∧ _))

/-- The loop of `ba_indicate_le_seq`. -/
def baIndicateLoop (k : BaKey) (band seq : ℕ) : ℕ → BaState → BaState
  | 0, s => s
  | fuel + 1, s =>
    match (s.entry k).head with
    | none => s
    | some mpdu =>
      if pastSeq (s.node mpdu).sn seq then s
      else baIndicateLoop k band seq fuel (baReleaseMpdu (baPopMpdu s k mpdu) k mpdu band)

/-- `ba_indicate_le_seq` -/
def baIndicateLeSeq (s : BaState) (k : BaKey) (seq : ℕ) : BaState :=
  baIndicateLoop k (s.entry k).band seq nodeFuel s

/-- "nothing released", the other result of `ba_seq_scan` -/
def noSeq : ℕ := 0xFFFF

/-- The loop of `ba_seq_scan`: `seq` is the number to go on from and `last`
    the last one released. -/
def baScanLoop (k : BaKey) (band : ℕ) : ℕ → BaState → ℕ → ℕ → BaState × ℕ
  | 0, s, _, last => (s, last)
  | fuel + 1, s, seq, last =>
    match (s.entry k).head with
    | none => (s, last)
    | some mpdu =>
      let sn := (s.node mpdu).sn
      if sn = (seq + 1) % 4096 then
        baScanLoop k band fuel (baReleaseMpdu (baPopMpdu s k mpdu) k mpdu band) sn sn
      else (s, last)

/-- `ba_seq_scan` -/
def baSeqScan (s : BaState) (k : BaKey) (seq : ℕ) : BaState × ℕ :=
  baScanLoop k (s.entry k).band nodeFuel s seq noSeq

/-- The window moves to `seq` and on over what follows without a gap: the
    write of `last`, `ba_seq_scan` and the second write its callers make. -/
def baMoveLast (s : BaState) (k : BaKey) (seq : ℕ) : BaState :=
  let s := s.setCtl k { (s.entry k).toBaCtl with last := seq }
  let r := baSeqScan s k seq
  if r.2 = noSeq then r.1 else r.1.setCtl k { (r.1.entry k).toBaCtl with last := r.2 }

/-- `ba_state_update` has nothing to do. -/
def BaCtl.settled (c : BaCtl) (sn checkType : ℕ) : Prop :=
  let stateAdj := (c.amsdu + 254) % 256
  if c.ref = sn then 1 < stateAdj ∨ checkType ≠ 3 else 1 < stateAdj

instance (c : BaCtl) (sn checkType : ℕ) : Decidable (c.settled sn checkType) := by
  unfold BaCtl.settled
  infer_instance

/-- `ba_state_update` -/
def baStateUpdate (s : BaState) (k : BaKey) (sn checkType : ℕ) : BaState :=
  let c := (s.entry k).toBaCtl
  if c.settled sn checkType then s
  else
    let s := s.setCtl k { c with chain := none }
    if c.flag ≠ 0 then s else baMoveLast s k c.ref

/-- The loop of `ba_timeout_entry`. -/
def baTimeoutLoop (k : BaKey) (now timeout : ℕ) : ℕ → BaState → BaState
  | 0, s => s
  | fuel + 1, s =>
    match (s.entry k).head with
    | none => s
    | some mpdu =>
      if timeout < u32 ((now : ℤ) - (s.node mpdu).tick) then
        let sn := (s.node mpdu).sn
        baTimeoutLoop k now timeout fuel (baMoveLast (baIndicateLeSeq s k sn) k sn)
      else s

/-- `ba_timeout_entry` -/
def baTimeoutEntry (s : BaState) (k : BaKey) (now timeout : ℕ) : BaState :=
  baTimeoutLoop k now timeout nodeFuel s

/-! ## The classifier -/

/-- The run-time switches the classifier reads. -/
structure RxFlags where
  /-- `wifi_dbdc_mode` -/
  dbdc : Bool
  /-- bit 0 of `wifi_debug_flags` -/
  fast : Bool
  /-- `wifi_no_ba_test` -/
  noBaTest : Bool
  /-- `wifi_flushone_timeout` -/
  timeout : ℕ
  /-- `KITE_TICK` -/
  tick : ℕ
  deriving DecidableEq, Repr

/-- The index into a band's BA table. -/
def baIdx (i : ℕ) : Fin 2048 := Fin.ofNat 2048 i

theorem val_baIdx_of_lt {i : ℕ} (h : i < 2048) : (baIdx i).val = i := Nat.mod_eq_of_lt h

/-- The entry of a station's TID. -/
def baKey (dbdc : Bool) (band wcid tid : ℕ) : BaKey :=
  if dbdc then
    if 150 < wcid then (false, baIdx (8 * (wcid - 151) + tid))
    else (true, baIdx (8 * (wcid - 1) + tid))
  else (band ≠ 0, baIdx (8 * (wcid - 1) + tid))

/-- Where a frame stands to the window. -/
inductive Standing where
  | inOrder
  | duplicate
  | behind
  | inside
  deriving DecidableEq, Repr

/-- The new last number of a window of `win` whose last slot is `sn`. -/
def slideTo (sn win : ℕ) : ℕ :=
  let fs := (sn : ℤ) - win + 1
  let fs := if fs < 0 then (sn : ℤ) - win + 0x1001 else fs
  ((fs - 1) % 4096).toNat

/-- Where a frame stands to the window, or `none` past it. -/
def BaCtl.standing (c : BaCtl) (sn : ℕ) : Option Standing :=
  if (c.last + 1) % 4096 = sn then some .inOrder
  else if c.last = sn then some .duplicate
  else if bit11 ((sn : ℤ) - c.last) then some .behind
  else if bit11 ((sn : ℤ) - ((c.last + c.win + 1) % 4096 : ℕ)) then some .inside
  else none

/-- The `while (1)` of `kite_classify_pn`: slide the window until the frame
    is no longer past it. -/
def kiteSlide (k : BaKey) (sn : ℕ) : ℕ → BaState → BaState × Standing
  | 0, s => (s, .inside)
  | fuel + 1, s =>
    match (s.entry k).standing sn with
    | some p => (s, p)
    | none =>
      let fs := slideTo sn (s.entry k).win
      let s := baMoveLast (baIndicateLeSeq s k fs) k fs
      kiteSlide k sn fuel (s.setCtl k { (s.entry k).toBaCtl with flag := 4 })

/-- "too far back: the peer restarted" -/
def peerRestarted (win last sn : ℕ) : Prop :=
  (win : ℤ) < last - sn ∨ bit11 (((win / 2 + sn + 1) % 4095 : ℕ) - last) ∨
    ((win : ℤ) < sn - last ∧ sn + win < 4096)

instance (win last sn : ℕ) : Decidable (peerRestarted win last sn) :=
  inferInstanceAs (Decidable (_ ∨ _ ∨ _))

/-- What a frame leaves in its entry: the number and A-MSDU code of the
    frame, and the branch that took it. A frame that ends its A-MSDU ends
    the chain. -/
def BaCtl.seen (c : BaCtl) (pn : KiteFrame) (flag : ℕ) : BaCtl :=
  { c with
    chain := if pn.amsdu ≤ 1 then none else c.chain
    amsdu := pn.amsdu
    ref := pn.sn
    flag := flag }

/-- The first frame after ADDBA starts the window. -/
def kiteOpenWindow (s : BaState) (k : BaKey) (pn : KiteFrame) : BaState :=
  let s := baFlushEntry s k
  s.setCtl k { (s.entry k).toBaCtl with
    last := (((pn.sn : ℤ) - 1) % 4096).toNat
    ref := pn.sn
    state := 4
    amsdu := pn.amsdu }

def kiteDuplicate (s : BaState) (k : BaKey) (fast : Bool) (pn : KiteFrame) (band : ℕ) : BaState :=
  let s := s.emit (if fast then bridgeOut k pn band pn.bss else .free band pn.bufId)
  s.setCtl k ((s.entry k).toBaCtl.seen pn 1)

def kiteBehind (s : BaState) (k : BaKey) (fast : Bool) (pn : KiteFrame) (band : ℕ) : BaState :=
  let c := (s.entry k).toBaCtl
  let s := s.setCtl k (c.seen pn 2)
  if peerRestarted c.win c.last pn.sn then
    let s := s.emit (bridgeOut k pn band pn.bss)
    s.setCtl k { (s.entry k).toBaCtl with last := pn.sn }
  else s.emit (if fast then bridgeOut k pn band pn.bss else .free band pn.bufId)

def kiteInOrder (s : BaState) (k : BaKey) (pn : KiteFrame) : BaState :=
  let s := s.emit (bridgeOut k pn (s.entry k).band pn.bss)
  let s := if pn.amsdu ≤ 1 then baMoveLast s k pn.sn else s
  s.setCtl k ((s.entry k).toBaCtl.seen pn 0)

/-- `*(u32 *)sub = …`, where `sub` is a node or the entry itself -/
def linkFrom (s : BaState) (k : BaKey) (prev : Option NodeRef) (node : NodeRef) : BaState :=
  match prev with
  | none => s.setEntry k { s.entry k with head := some node }
  | some p => s.setNode p { s.node p with next := some node }

/-- The search for the place of `sn`: `prev` and `cur`. -/
def kiteFindPlace (s : BaState) (sn : ℕ) : ℕ → Option NodeRef → Option NodeRef →
    Option NodeRef × Option NodeRef
  | 0, prev, cur => (prev, cur)
  | _ + 1, prev, none => (prev, none)
  | fuel + 1, prev, some cur =>
    if bit11 (((s.node cur).sn : ℤ) - sn) then
      kiteFindPlace s sn fuel (some cur) (s.node cur).next
    else (prev, some cur)

/-- The next MSDU of the A-MSDU being held. -/
def kiteChain (s : BaState) (sub node : NodeRef) : BaState :=
  let tail := (s.node sub).msduTail
  let s := s.setNode sub { s.node sub with msduCnt := u16 ((s.node sub).msduCnt + 1) }
  let s := s.setNode node { s.node node with next := none }
  let s := match tail with
    | some t => s.setNode t { s.node t with next := some node }
    | none => s.setNode sub { s.node sub with msduHead := some node }
  s.setNode sub { s.node sub with msduTail := some node }

/-- Link a new MPDU in between `prev` and `cur`. -/
def kiteLink (s : BaState) (k : BaKey) (pn : KiteFrame) (node : NodeRef)
    (prev cur : Option NodeRef) : BaState :=
  let s := s.setNode node { s.node node with next := cur }
  let s := linkFrom s k prev node
  let e := s.entry k
  s.setEntry k { e with
    count := u16 (e.count + 1)
    chain := if pn.amsdu ≤ 1 then none else some node }

/-- A new MPDU takes its place in the list, unless its number is held already. -/
def kiteInsert (s : BaState) (k : BaKey) (pn : KiteFrame) (node : NodeRef) : BaState :=
  let place := kiteFindPlace s pn.sn nodeFuel none (s.entry k).head
  if place.2.map (fun cur => (s.node cur).sn) = some pn.sn then
    (reorderNodeFree s node.idx node.pool).emit (.free (s.entry k).band pn.bufId)
  else kiteLink s k pn node place.1 place.2

/-- Fill a node with a frame. -/
def kiteFillNode (s : BaState) (pn : KiteFrame) (node : NodeRef) (tick : ℕ) : BaState :=
  s.setNode node {
    toKiteFrame := pn
    next := none
    msduHead := none
    msduTail := none
    msduCnt := (s.node node).msduCnt
    idx := node.idx
    pool := node.pool
    tick := tick }

/-- Hold a frame inside the window. Without a node it is dropped, and its
    buffer with it. -/
def kiteHold (s : BaState) (k : BaKey) (pn : KiteFrame) (tick : ℕ) : BaState :=
  match reorderNodeAlloc s with
  | none => s
  | some (node, s) =>
    let s := kiteFillNode s pn node tick
    let s := match (s.entry k).chain with
      | some sub => kiteChain s sub node
      | none => kiteInsert s k pn node
    s.setCtl k ((s.entry k).toBaCtl.seen pn 3)

/-- The four branches behind the `while (1)`. -/
def kiteTake (s : BaState) (k : BaKey) (flags : RxFlags) (pn : KiteFrame) (band : ℕ) :
    Standing → BaState
  | .inOrder => kiteInOrder s k pn
  | .duplicate => kiteDuplicate s k flags.fast pn band
  | .behind => kiteBehind s k flags.fast pn band
  | .inside => kiteHold s k pn flags.tick

/-- What becomes of the caller's buffer. -/
inductive Verdict where
  /-- `buf_id` returned: the caller sends the frame up -/
  | up
  /-- `-1` returned: the window took the frame -/
  | taken
  deriving DecidableEq, Repr

/-- A frame of an entry with an open or opening window. -/
def kiteReorder (s : BaState) (k : BaKey) (flags : RxFlags) (pn : KiteFrame) (band : ℕ) :
    BaState :=
  let s := if (s.entry k).state = 3 then kiteOpenWindow s k pn else s
  let s := s.setCtl k { (s.entry k).toBaCtl with band := band }
  let s := baStateUpdate s k pn.sn pn.amsdu
  let r := kiteSlide k pn.sn nodeFuel s
  kiteTake r.1 k flags pn band r.2

/-- `kite_classify_pn` -/
def kiteClassifyPn (s : BaState) (flags : RxFlags) (pn : KiteFrame) (band : ℕ) :
    BaState × Verdict :=
  if pn.wcid = 0 then (s.emit (.free band pn.bufId), .taken)
  else
    let k := baKey flags.dbdc band pn.wcid pn.tid
    if (s.entry k).state = 0 then (baFlushEntry s k, .up)
    else (kiteReorder s k flags pn band, .taken)

/-! ## The BA mails -/

/-- The fields the ADDBA, DELBA and reset paths write. -/
def BaCtl.closed (c : BaCtl) (band : ℕ) : BaCtl :=
  { c with win := 8, last := 0, ref := 0, amsdu := 0, flag := 0, state := 0, band := band }

/-- `npu_set_ba_entry` for an entry: a window of 0 from 0 is DELBA. -/
def npuSetBaEntry (s : BaState) (k : BaKey) (band winSize ssn : ℕ) : BaState :=
  let s := baFlushEntry s k
  let c := (s.entry k).toBaCtl
  if winSize = 0 ∧ ssn = 0 then s.setCtl k (c.closed band)
  else s.setCtl k { c with win := winSize, last := ssn, band := band, state := 3 }

/-- One entry of `wifi_reset_ba_entry`. -/
def wifiResetBaEntry (s : BaState) (k : BaKey) (dir : ℕ) : BaState :=
  let s := baFlushEntry s k
  s.setCtl k ((s.entry k).toBaCtl.closed dir)

/-- `npu_set_bar_info` for an entry. -/
def npuSetBarInfo (s : BaState) (k : BaKey) (ssn : ℕ) : BaState :=
  let s := baStateUpdate s k ssn 3
  if bit11 (((s.entry k).last : ℤ) - ssn) then
    let newSsn := if ssn ≠ 0 then ssn - 1 else 4095
    baMoveLast (baIndicateLeSeq s k newSsn) k newSsn
  else s

end ClankerNPU.Kite
