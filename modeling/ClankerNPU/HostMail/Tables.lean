import ClankerNPU.Dba.Config
import ClankerNPU.Tunnel.Model

/-! # Tables behind the host's mails

    Handlers of host mails that index a table with something the mail
    holds: the DBA mail, the tunnel mails and four of the kite driver's.
    Each handler returns the elements it reads and writes beside its
    effect. -/

namespace ClankerNPU.HostMail

open Dba (TcontCfg Tcont allocNum dbaIdxOnu)

/-! ## Tables -/

/-- The arrays the handlers index, by the source's names. -/
inductive Table where
  | dbaTcontCfg
  | dbaCtx
  | dbaOnuTxBurst
  | tunnelFuncTable
  | fragmentMtu
  /-- the VXLAN header templates, by bytes -/
  | vxlanHdr
  /-- the SRv6 header templates, by bytes -/
  | srv6Hdr
  | tunnelSrv6HdrLen
  | rxd5gBufid
  | rxd2gBufid
  /-- address 0 taken for a table -/
  | null
  | rxd5g
  | rxd2g
  | waitState2g
  | waitState5g
  | pcieState
  | ratelimit
  deriving DecidableEq

/-- Elements of a table. -/
def Table.size : Table → ℕ
  | dbaTcontCfg => 128
  | dbaCtx => 128
  | dbaOnuTxBurst => 64
  | tunnelFuncTable => 10
  | fragmentMtu => 4
  | vxlanHdr => 20 * 128
  | srv6Hdr => 8 * 128
  | tunnelSrv6HdrLen => 8
  | rxd5gBufid => 1536
  | rxd2gBufid => 1536
  | null => 0
  | rxd5g => 1536
  | rxd2g => 1536
  | waitState2g => 16
  | waitState5g => 16
  | pcieState => 2
  | ratelimit => 32

/-- An element read or written. -/
structure Access where
  table : Table
  idx : ℕ
  deriving DecidableEq

def Access.InTable (a : Access) : Prop := a.idx < a.table.size

/-- All of a handler's accesses are inside. -/
def AllIn (l : List Access) : Prop := ∀ a ∈ l, a.InTable

variable {σ : Type*} {l l' : List Access} {t d : Table} {i : ℕ}

theorem allIn_nil : AllIn [] := fun _ ha => absurd ha List.not_mem_nil

theorem allIn_cons : AllIn (⟨t, i⟩ :: l) ↔ i < t.size ∧ AllIn l := List.forall_mem_cons

theorem allIn_append : AllIn (l ++ l') ↔ AllIn l ∧ AllIn l' := List.forall_mem_append

theorem allIn_one : AllIn [⟨t, i⟩] ↔ i < t.size := by
  rw [allIn_cons]
  exact and_iff_left allIn_nil

/-- A loop over elements. -/
theorem allIn_map (is : List ℕ) (t : Table) :
    AllIn (is.map fun i => ⟨t, i⟩) ↔ ∀ i ∈ is, i < t.size := List.forall_mem_map

/-- A loop over the first elements. -/
theorem allIn_range (n : ℕ) (t : Table) :
    AllIn ((List.range n).map fun i => ⟨t, i⟩) ↔ n ≤ t.size := by
  rw [allIn_map]
  refine ⟨fun h => ?_, fun h i hi => Nat.lt_of_lt_of_le (List.mem_range.mp hi) h⟩
  rcases Nat.eq_zero_or_pos n with hzero | hpos
  · omega
  · have hlast := h (n - 1) (List.mem_range.mpr (by omega))
    omega

/-! ## The DBA mail -/

/-- `DBA_FN_*` -/
inductive DbaFn where
  | printDbaEn
  | printNoIdleEn
  | cleanNoIdle
  | dbaTimerEn
  | onuState
  | onuUsFec
  | tcontDba
  | tcontState
  | getTcontInfo
  | ploamuFlag
  | swBwmapTest
  | setOltPhyData
  | getOltPhyData
  | setOltMacData
  | getOltMacData
  | tcontMappingMode
  | oltMode
  | allBandToSingleOnu
  | newDbaEn
  | cleanOnuTxBurst
  | getOnuTxBurst
  deriving DecidableEq

/-- The functions in the order of their ids. -/
def dbaFns : List DbaFn :=
  [.printDbaEn, .printNoIdleEn, .cleanNoIdle, .dbaTimerEn, .onuState, .onuUsFec, .tcontDba,
    .tcontState, .getTcontInfo, .ploamuFlag, .swBwmapTest, .setOltPhyData, .getOltPhyData,
    .setOltMacData, .getOltMacData, .tcontMappingMode, .oltMode, .allBandToSingleOnu,
    .newDbaEn, .cleanOnuTxBurst, .getOnuTxBurst]

/-- `struct dba_mail`, as far as the handlers read it -/
structure DbaMail where
  allocId : BitVec 16
  fixBand : BitVec 16
  maxBand : BitVec 16
  assureBand : BitVec 16
  funcType : BitVec 8
  funcId : BitVec 8
  getTimerEn : BitVec 8
  doTimerEn : BitVec 8
  enable : BitVec 8
  onuId : BitVec 8
  state : BitVec 8
  swBwmapTest : BitVec 8
  dbaType : BitVec 8
  valid : BitVec 8
  fec : BitVec 8
  tcontId : BitVec 8
  tcontMapMode : BitVec 8
  reg : BitVec 32
  regVal : BitVec 32
  oltMode : BitVec 8
  allBandToSingleOnu : BitVec 8

def DbaMail.fn (m : DbaMail) : Option DbaFn := dbaFns[m.funcId.toNat]?

/-- The data of `npu_dba.c` that the mails reach. -/
structure DbaState where
  printEn : BitVec 8
  printNoIdleEn : BitVec 8
  cleanNoIdle : BitVec 8
  getTimerEn : BitVec 8
  doTimerEn : BitVec 8
  swBwmapTest : BitVec 8
  tcont : Tcont
  /-- `dba_tcont.olt_mode` -/
  oltMode : ℕ
  burstOvh : ℕ
  singleOnuEn : BitVec 8
  newEn : BitVec 8
  onuTxBurst : ℕ → BitVec 32
  /-- the FTTR registers, by address -/
  fttr : BitVec 32 → BitVec 32

/-- The T-CONTs of an ONU, in a mail that goes through them all. -/
def onuAccesses (mode onu : ℕ) : List Access :=
  ((List.range allocNum).filter fun i => dbaIdxOnu i mode = some onu).map
    fun i => ⟨.dbaTcontCfg, i⟩

/-- `dba_mail_set` -/
def dbaMailSet (m : DbaMail) (s : DbaState) : DbaState × List Access :=
  let tc := s.tcont
  let id := m.tcontId.toNat
  let c := tc.cfg id
  match m.fn with
  | some .printDbaEn => ({ s with printEn := m.enable }, [])
  | some .printNoIdleEn => ({ s with printNoIdleEn := m.enable }, [])
  | some .cleanNoIdle => ({ s with cleanNoIdle := m.enable }, [])
  | some .dbaTimerEn => ({ s with getTimerEn := m.getTimerEn, doTimerEn := m.doTimerEn }, [])
  | some .swBwmapTest => ({ s with swBwmapTest := m.swBwmapTest }, [])
  | some .onuState =>
    if m.state ≠ 0 then (s, [])
    else
      let cfg := (Dba.Mail.onuState m.onuId.toNat m.state.toNat).edit tc.mode tc.cfg
      ({ s with tcont := { tc with cfg := cfg, changed := true } },
        onuAccesses tc.mode m.onuId.toNat)
  | some .onuUsFec =>
    let cfg := (Dba.Mail.onuUsFec m.onuId.toNat m.fec.toNat).edit tc.mode tc.cfg
    ({ s with tcont := { tc with cfg := cfg, changed := true } },
      onuAccesses tc.mode m.onuId.toNat)
  | some .tcontDba =>
    let c := ⟨c.flags, m.allocId.toNat, m.dbaType.toNat, m.fixBand.toNat, m.assureBand.toNat,
      m.maxBand.toNat⟩
    ({ s with tcont := { tc with cfg := Function.update tc.cfg id c, changed := true } },
      [⟨.dbaTcontCfg, id⟩])
  | some .tcontState =>
    let c := { c with flags := c.flags / 2 * 2 + m.valid.toNat % 2 }
    ({ s with tcont := { tc with cfg := Function.update tc.cfg id c, changed := true } },
      [⟨.dbaTcontCfg, id⟩])
  -- prints the configuration and the current bandwidth
  | some .getTcontInfo => (s, [⟨.dbaTcontCfg, id⟩, ⟨.dbaCtx, id⟩])
  | some .setOltPhyData => ({ s with fttr := Function.update s.fttr m.reg m.regVal }, [])
  | some .setOltMacData => ({ s with fttr := Function.update s.fttr m.reg m.regVal }, [])
  | some .tcontMappingMode =>
    ({ s with tcont := { tc with mode := m.tcontMapMode.toNat, changed := true } }, [])
  | some .oltMode =>
    if m.oltMode = 1 then ({ s with burstOvh := 75, oltMode := 1 }, [])
    else ({ s with burstOvh := 46, oltMode := 0 }, [])
  | some .allBandToSingleOnu => ({ s with singleOnuEn := m.allBandToSingleOnu }, [])
  | some .newDbaEn => ({ s with newEn := m.enable }, [])
  | some .cleanOnuTxBurst =>
    ({ s with onuTxBurst := Function.update s.onuTxBurst m.onuId.toNat 0 },
      [⟨.dbaOnuTxBurst, m.onuId.toNat⟩])
  | _ => (s, [])

/-- `dba_mail_get`: the mail with its answer. -/
def dbaMailGet (m : DbaMail) (s : DbaState) : DbaMail × List Access :=
  match m.fn with
  | some .getOltPhyData => ({ m with regVal := s.fttr m.reg }, [])
  | some .getOltMacData => ({ m with regVal := s.fttr m.reg }, [])
  | some .getOnuTxBurst =>
    ({ m with regVal := s.onuTxBurst m.onuId.toNat }, [⟨.dbaOnuTxBurst, m.onuId.toNat⟩])
  | _ => (m, [])

/-- `dba_mail_handler` -/
def dbaMailHandler (m : DbaMail) (s : DbaState) : (DbaState × DbaMail) × List Access :=
  -- DBA_SET_WAIT, DBA_GET_WAIT
  if m.funcType = 1 then
    let r := dbaMailSet m s
    ((r.1, m), r.2)
  else if m.funcType = 3 then
    let r := dbaMailGet m s
    ((s, r.1), r.2)
  else ((s, m), [])

/-! ## The tunnel mails -/

/-- The data of the tunnel that the mails with an index reach. -/
structure TunnelState where
  tun : Tunnel.Tun
  /-- `fragment_mtu` -/
  fragmentMtu : ℕ → ℕ

/-- `tunnel_mail_frag_mtu` -/
def tunnelMailFragMtu (base : Memory) (s : TunnelState) : TunnelState :=
  { s with fragmentMtu := Function.update s.fragmentMtu (base 8).val (base.word32 12) }

/-- The elements `tunnel_mail_store_hdr` writes. -/
def storeHdrAccesses (base : Memory) : List Access :=
  (List.range 50).map fun k => ⟨.vxlanHdr, (base 8).val * 128 + k⟩

/-- The elements `tunnel_mail_store_srv6` writes, none for an index it
    rejects. -/
def storeSrv6Accesses (base : Memory) : List Access :=
  if (base 8).val > 7 then []
  else
    ((List.range (base 9).val).map fun k => ⟨.srv6Hdr, (base 8).val * 128 + k⟩) ++
      [⟨.tunnelSrv6HdrLen, (base 8).val⟩]

/-- The elements a tunnel function reads or writes; the functions left out
    take no index. -/
def tunnelAccesses (base : Memory) (funcId : ℕ) : List Access :=
  if funcId = 0 then storeHdrAccesses base
  else if funcId = 3 then storeSrv6Accesses base
  else if funcId = 5 then [⟨.fragmentMtu, (base 8).val⟩]
  else []

/-- The tunnel after a function. -/
def tunnelFunc (base : Memory) (s : TunnelState) (funcId : ℕ) : TunnelState :=
  if funcId = 0 then { s with tun := Tunnel.tunnelMailStoreHdr base s.tun }
  else if funcId = 3 then { s with tun := Tunnel.tunnelMailStoreSrv6 base s.tun }
  else if funcId = 5 then tunnelMailFragMtu base s
  else s

/-- `tunnel_mail_dispatch` -/
def tunnelMailDispatch (base : Memory) (s : TunnelState) : TunnelState :=
  if base.word32 0 ≥ 10 then s else tunnelFunc base s (base.word32 0)

/-- The elements `tunnel_mail_dispatch` and its function read or write. -/
def tunnelMailAccesses (base : Memory) : List Access :=
  if base.word32 0 ≥ 10 then []
  else ⟨.tunnelFuncTable, base.word32 0⟩ :: tunnelAccesses base (base.word32 0)

/-! ## The kite driver's mails -/

/-- Where buffer ids come from, per band: `buf_id_alloc_hw`, none for -1,
    and `buf_id_free`. -/
structure IdSource (σ : Type*) where
  alloc : ℕ → σ → Option ℕ × σ
  free : ℕ → σ → ℕ → σ

/-- `n` ids in a row. -/
def IdSource.Gives (src : IdSource σ) (band : ℕ) : ℕ → σ → Prop
  | 0, _ => True
  | n + 1, st => (src.alloc band st).1.isSome ∧ src.Gives band n (src.alloc band st).2

/-- A descriptor, as far as `wifi_rxd_set_buf` writes it. -/
structure RxDesc where
  buf : ℕ
  ctrl : ℕ

/-- An rx ring. -/
structure RxdRing where
  bufid : ℕ → ℕ
  desc : ℕ → RxDesc
  initDone : Bool
  cpuIdx : ℕ
  flushTick : ℕ

/-- The data of the kite driver that these mails reach. -/
structure KiteState (σ : Type*) where
  ids : σ
  ring5g : RxdRing
  ring2g : RxdRing
  /-- `rxd_2g_bufid_base`, 0 before its allocation -/
  bufid2gBase : ℕ
  /-- the answer of `sram_buf_alloc(6)`, 0 without room -/
  sram6 : ℕ
  /-- `wifi_pkt_buf_addr` -/
  pktBufAddr : ℕ
  tick : ℕ
  wait2g : ℕ → BitVec 8
  wait5g : ℕ → BitVec 8
  waitBand2g : BitVec 8
  waitBand5g : BitVec 8
  forceToCpu : Bool
  pcieState : ℕ → ℕ
  ratelimit : ℕ → BitVec 32

/-- `wifi_rxd_set_buf` -/
def wifiRxdSetBuf (pktBufAddr : ℕ) (c : RxDesc) (id : ℕ) : RxDesc where
  buf := (id * 4096 + pktBufAddr) % 2 ^ 30 + 2 ^ 31
  ctrl := (c.ctrl &&& 0x4000) ||| 0xDAC

/-- Ids for the descriptors from `i` on, until there is none. -/
def rxdFill (src : IdSource σ) (band pktBufAddr : ℕ) (t d : Table) :
    ℕ → ℕ → RxdRing → σ → (RxdRing × σ × Bool) × List Access
  | 0, _, r, st => ((r, st, true), [])
  | n + 1, i, r, st =>
    match src.alloc band st with
    | (none, st) => ((r, st, false), [])
    | (some id, st) =>
      let r := { r with
        bufid := Function.update r.bufid i (id % 65536)
        desc := Function.update r.desc i (wifiRxdSetBuf pktBufAddr (r.desc i) id) }
      let rest := rxdFill src band pktBufAddr t d n (i + 1) r st
      (rest.1, ⟨t, i⟩ :: ⟨d, i⟩ :: rest.2)

/-- A ring's ids go back if it was in use, then it is filled. The size is
    printed when it is out of range, and used. -/
def wifiInitRxd (src : IdSource σ) (band pktBufAddr tick : ℕ) (t d : Table) (used : Bool)
    (ringSize : ℕ) (r : RxdRing) (st : σ) : (RxdRing × σ) × List Access :=
  let freed := if used then
      ((List.range ringSize).foldl (fun st i => src.free band st (r.bufid i)) st,
        (List.range ringSize).map fun i => (⟨t, i⟩ : Access))
    else (st, [])
  let r := if used then { r with initDone := false } else r
  let filled := rxdFill src band pktBufAddr t d ringSize 0 r freed.1
  let r := filled.1.1
  let r := if filled.1.2.2 then { r with cpuIdx := 0, flushTick := tick, initDone := true } else r
  ((r, filled.1.2.1), freed.2 ++ filled.2)

/-- `wifi_init_rxd_5g` -/
def wifiInitRxd5g (src : IdSource σ) (ringSize band : ℕ) (s : KiteState σ) :
    KiteState σ × List Access :=
  let r := wifiInitRxd src band s.pktBufAddr s.tick .rxd5gBufid .rxd5g s.ring5g.initDone ringSize
    s.ring5g s.ids
  ({ s with ring5g := r.1.1, ids := r.1.2 }, r.2)

/-- The table of `rxd_2g_bufid_base`. -/
def KiteState.tbl2g (s : KiteState σ) : Table :=
  if s.bufid2gBase = 0 then .null else .rxd2gBufid

/-- `wifi_init_rxd_2g` -/
def wifiInitRxd2g (src : IdSource σ) (ringSize band : ℕ) (s : KiteState σ) :
    KiteState σ × List Access :=
  let used := s.bufid2gBase ≠ 0 ∧ s.ring2g.initDone = true
  let r := wifiInitRxd src band s.pktBufAddr s.tick s.tbl2g .rxd2g used ringSize s.ring2g s.ids
  ({ s with ring2g := r.1.1, ids := r.1.2 }, r.2)

/-- `npu_set_rxd_init` -/
def npuSetRxdInit (src : IdSource σ) (ringSize band : ℕ) (s : KiteState σ) :
    KiteState σ × List Access :=
  if band = 1 then wifiInitRxd5g src ringSize 1 s else wifiInitRxd2g src ringSize band s

/-- The part of `wifi_npu_init` that gives band 0 its table. -/
def wifiNpuInit (band : ℕ) (s : KiteState σ) : KiteState σ :=
  if band = 0 then { s with bufid2gBase := s.sram6 } else s

/-- The flags looked at until one is set. -/
def waitScan (w2 w5 : ℕ → BitVec 8) : List ℕ → Bool × List Access
  | [] => (false, [])
  | i :: rest =>
    if w2 i ≠ 0 then (true, [⟨.waitState2g, i⟩])
    else if w5 i ≠ 0 then (true, [⟨.waitState2g, i⟩, ⟨.waitState5g, i⟩])
    else
      let r := waitScan w2 w5 rest
      (r.1, ⟨.waitState2g, i⟩ :: ⟨.waitState5g, i⟩ :: r.2)

/-- `npu_set_wait_state` -/
def npuSetWaitState (port : ℕ) (state : BitVec 8) (s : KiteState σ) : KiteState σ × List Access :=
  let set := if port ≤ 15 then
      ({ s with wait2g := Function.update s.wait2g port state, waitBand2g := state },
        (⟨.waitState2g, port⟩ : Access))
    else
      ({ s with wait5g := Function.update s.wait5g (port - 16) state, waitBand5g := state },
        (⟨.waitState5g, port - 16⟩ : Access))
  let scan := waitScan set.1.wait2g set.1.wait5g (List.range 16)
  ({ set.1 with forceToCpu := scan.1 }, set.2 :: scan.2)

/-- `npu_set_band_enable` -/
def npuSetBandEnable (band : ℕ) (s : KiteState σ) : KiteState σ × List Access :=
  if band > 1 then (s, [])
  else ({ s with pcieState := Function.update s.pcieState band 1 }, [⟨.pcieState, band⟩])

/-- The kite driver's mails with an index. -/
inductive KiteFn where
  | setDesc
  | setTranToCpu
  | setPcieState
  | setRatelimit

/-- `msg[0] & 0xF` -/
def mailBand (msg : ℕ → BitVec 32) : ℕ := (msg 0).toNat % 16

/-- `msg[2] * 16 + msg[3]` -/
def ratelimitIdx (msg : ℕ → BitVec 32) : ℕ := (msg 2 * 16#32 + msg 3).toNat

/-- `wifi_mail_set_desc`, `wifi_mail_set_tran_to_cpu`,
    `wifi_mail_set_pcie_state` and `wifi_mail_set_ratelimit` -/
def wifiMailSet (src : IdSource σ) (fn : KiteFn) (msg : ℕ → BitVec 32) (s : KiteState σ) :
    KiteState σ × List Access :=
  match fn with
  | .setDesc => npuSetRxdInit src (msg 2).toNat (mailBand msg) (wifiNpuInit (mailBand msg) s)
  | .setTranToCpu => npuSetWaitState (mailBand msg) ((msg 2).setWidth 8) s
  | .setPcieState => npuSetBandEnable (mailBand msg) s
  | .setRatelimit =>
    ({ s with ratelimit := Function.update s.ratelimit (ratelimitIdx msg) (msg 4) },
      [⟨.ratelimit, ratelimitIdx msg⟩])

/-! ## Any mail -/

inductive Mail where
  | dba (m : DbaMail)
  | tunnel (base : Memory)
  | kite (fn : KiteFn) (msg : ℕ → BitVec 32)

/-- What the handlers share. -/
structure State (σ : Type*) where
  dba : DbaState
  tunnel : TunnelState
  kite : KiteState σ

/-- A mail handled: the data after it and the elements it read or wrote. -/
def handleMail (src : IdSource σ) (s : State σ) : Mail → State σ × List Access
  | .dba m =>
    let r := dbaMailHandler m s.dba
    ({ s with dba := r.1.1 }, r.2)
  | .tunnel base =>
    ({ s with tunnel := tunnelMailDispatch base s.tunnel }, tunnelMailAccesses base)
  | .kite fn msg =>
    let r := wifiMailSet src fn msg s.kite
    ({ s with kite := r.1 }, r.2)

/-! ## Mails that fit -/

/-- T-CONT ids are below 128 and ONU ids below 64 where they are used. -/
def DbaMail.Fits (m : DbaMail) : Prop :=
  (m.funcType = 1 → m.fn = some .tcontDba ∨ m.fn = some .tcontState ∨ m.fn = some .getTcontInfo →
    m.tcontId.toNat < 128) ∧
  (m.funcType = 1 ∧ m.fn = some .cleanOnuTxBurst ∨ m.funcType = 3 ∧ m.fn = some .getOnuTxBurst →
    m.onuId.toNat < 64)

/-- A VXLAN index is below 20, an SRv6 header ends with the last template,
    and a fragment MTU index is below 4. -/
def TunnelFits (base : Memory) : Prop :=
  (base.word32 0 = 0 → (base 8).val < 20) ∧
  (base.word32 0 = 3 → (base 8).val ≤ 7 → (base 8).val * 128 + (base 9).val ≤ 1024) ∧
  (base.word32 0 = 5 → (base 8).val < 4)

/-- A ring is no larger than its table, or is not in use and the ids run
    out before the table does. -/
def RingFits (src : IdSource σ) (band : ℕ) (t : Table) (used : Prop) (ringSize : ℕ) (st : σ) :
    Prop :=
  ringSize ≤ t.size ∨ ¬used ∧ ¬src.Gives band (t.size + 1) st

/-- The ring size fits the ring of the band, a BSS index the table. -/
def KiteFits (src : IdSource σ) (fn : KiteFn) (msg : ℕ → BitVec 32) (s : KiteState σ) : Prop :=
  match fn with
  | .setDesc =>
    let band := mailBand msg
    let s := wifiNpuInit band s
    if band = 1 then
      RingFits src 1 .rxd5gBufid (s.ring5g.initDone = true) (msg 2).toNat s.ids
    else
      RingFits src band s.tbl2g (s.bufid2gBase ≠ 0 ∧ s.ring2g.initDone = true) (msg 2).toNat s.ids
  | .setTranToCpu => True
  | .setPcieState => True
  | .setRatelimit => ratelimitIdx msg < 32

def Mail.Fits (src : IdSource σ) (s : State σ) : Mail → Prop
  | .dba m => m.Fits
  | .tunnel base => TunnelFits base
  | .kite fn msg => KiteFits src fn msg s.kite

/-! ## The DBA mail stays in its tables -/

variable {src : IdSource σ}

/-- A mail that goes through all T-CONTs stays in their table. -/
theorem allIn_onuAccesses (mode onu : ℕ) : AllIn (onuAccesses mode onu) := by
  unfold onuAccesses
  rw [allIn_map]
  intro i hi
  exact List.mem_range.mp (List.mem_of_mem_filter hi)

/-- A mail that sets. -/
theorem dbaMailSet_allIn (m : DbaMail) (s : DbaState) :
    AllIn (dbaMailSet m s).2 ↔
      (m.fn = some .tcontDba ∨ m.fn = some .tcontState ∨ m.fn = some .getTcontInfo →
        m.tcontId.toNat < 128) ∧
      (m.fn = some .cleanOnuTxBurst → m.onuId.toNat < 64) := by
  unfold dbaMailSet
  dsimp only
  cases hfn : m.fn with
  | none => simp [allIn_nil]
  | some fn =>
    -- the functions with a raw index come last, the others use none
    cases fn
    case onuState =>
      simp only [Option.some.injEq, reduceCtorEq, or_self, false_imp_iff, and_self, iff_true]
      split
      · exact allIn_nil
      · exact allIn_onuAccesses _ _
    case onuUsFec => simp [allIn_onuAccesses]
    case oltMode =>
      simp only [Option.some.injEq, reduceCtorEq, or_self, false_imp_iff, and_self, iff_true]
      split
      · exact allIn_nil
      · exact allIn_nil
    case tcontDba => simp [allIn_one, Table.size]
    case tcontState => simp [allIn_one, Table.size]
    case getTcontInfo => simp [allIn_cons, allIn_nil, Table.size]
    case cleanOnuTxBurst => simp [allIn_one, Table.size]
    all_goals simp [allIn_nil]

/-- A mail that asks. -/
theorem dbaMailGet_allIn (m : DbaMail) (s : DbaState) :
    AllIn (dbaMailGet m s).2 ↔ (m.fn = some .getOnuTxBurst → m.onuId.toNat < 64) := by
  unfold dbaMailGet
  cases hfn : m.fn with
  | none => simp [allIn_nil]
  | some fn =>
    cases fn
    case getOnuTxBurst => simp [allIn_one, Table.size]
    all_goals simp [allIn_nil]

theorem dbaMailHandler_allIn (m : DbaMail) (s : DbaState) :
    AllIn (dbaMailHandler m s).2 ↔ m.Fits := by
  unfold dbaMailHandler DbaMail.Fits
  by_cases hset : m.funcType = 1
  · have hget : ¬m.funcType = 3 := by
      rw [hset]
      decide
    rw [if_pos hset]
    refine (dbaMailSet_allIn m s).trans (and_congr ?_ ?_)
    · exact ⟨fun h _ => h, fun h => h hset⟩
    · rw [and_iff_right hset, or_iff_left fun h => hget h.1]
  · rw [if_neg hset]
    by_cases hget : m.funcType = 3
    · rw [if_pos hget]
      refine (dbaMailGet_allIn m s).trans ?_
      rw [and_iff_right (fun h => absurd h hset), or_iff_right fun h => hset h.1,
        and_iff_right hget]
    · rw [if_neg hget]
      exact iff_of_true allIn_nil ⟨fun h => absurd h hset,
        fun h => h.elim (fun h => absurd h.1 hset) fun h => absurd h.1 hget⟩

/-! ## The tunnel mails stay in their tables -/

theorem storeHdr_allIn (base : Memory) : AllIn (storeHdrAccesses base) ↔ (base 8).val < 20 := by
  unfold storeHdrAccesses AllIn
  rw [List.forall_mem_map]
  unfold Access.InTable Table.size
  dsimp only
  refine ⟨fun h => ?_, fun h k hk => ?_⟩
  · have hfirst := h 0 (List.mem_range.mpr (Nat.zero_lt_succ _))
    omega
  · have hlt := List.mem_range.mp hk
    omega

/-- The bytes of an SRv6 header. -/
theorem srv6Bytes_allIn (idx len : ℕ) (hidx : idx ≤ 7) :
    AllIn ((List.range len).map fun k => ⟨.srv6Hdr, idx * 128 + k⟩) ↔ idx * 128 + len ≤ 1024 := by
  unfold AllIn
  rw [List.forall_mem_map]
  unfold Access.InTable Table.size
  dsimp only
  refine ⟨fun h => ?_, fun h k hk => ?_⟩
  · rcases Nat.eq_zero_or_pos len with hzero | hpos
    · omega
    · have hlast := h (len - 1) (List.mem_range.mpr (by omega))
      omega
  · have hlt := List.mem_range.mp hk
    omega

theorem storeSrv6_allIn (base : Memory) :
    AllIn (storeSrv6Accesses base) ↔
      ((base 8).val ≤ 7 → (base 8).val * 128 + (base 9).val ≤ 1024) := by
  unfold storeSrv6Accesses
  by_cases hidx : (base 8).val > 7
  · rw [if_pos hidx]
    exact iff_of_true allIn_nil fun hle => absurd hle (by omega)
  · have hle : (base 8).val ≤ 7 := by omega
    have hlen : (base 8).val < Table.tunnelSrv6HdrLen.size := Nat.lt_succ_of_le hle
    rw [if_neg hidx, allIn_append, allIn_one, srv6Bytes_allIn _ _ hle]
    exact ⟨fun h _ => h.1, fun h => ⟨h hle, hlen⟩⟩

/-- The functions with an index. -/
theorem tunnelAccesses_allIn (base : Memory) (funcId : ℕ) :
    AllIn (tunnelAccesses base funcId) ↔
      (funcId = 0 → (base 8).val < 20) ∧
      (funcId = 3 → (base 8).val ≤ 7 → (base 8).val * 128 + (base 9).val ≤ 1024) ∧
      (funcId = 5 → (base 8).val < 4) := by
  unfold tunnelAccesses
  split_ifs with h0 h3 h5
  · rw [storeHdr_allIn]
    exact ⟨fun h => ⟨fun _ => h, by omega, by omega⟩, fun h => h.1 h0⟩
  · rw [storeSrv6_allIn]
    exact ⟨fun h => ⟨by omega, fun _ => h, by omega⟩, fun h => h.2.1 h3⟩
  · have hone : AllIn [⟨.fragmentMtu, (base 8).val⟩] ↔ (base 8).val < 4 :=
      @allIn_one .fragmentMtu (base 8).val
    rw [hone]
    exact ⟨fun h => ⟨by omega, by omega, fun _ => h⟩, fun h => h.2.2 h5⟩
  · exact iff_of_true allIn_nil ⟨fun h => absurd h h0, fun h => absurd h h3,
      fun h => absurd h h5⟩

theorem tunnelMailAccesses_allIn (base : Memory) :
    AllIn (tunnelMailAccesses base) ↔ TunnelFits base := by
  have hfits := tunnelAccesses_allIn base (base.word32 0)
  unfold tunnelMailAccesses
  by_cases hbig : base.word32 0 ≥ 10
  · have hother : TunnelFits base := ⟨by omega, by omega, by omega⟩
    rw [if_pos hbig]
    exact iff_of_true allIn_nil hother
  · have hin : base.word32 0 < Table.tunnelFuncTable.size := Nat.lt_of_not_le hbig
    rw [if_neg hbig, allIn_cons, and_iff_right hin]
    exact hfits

/-! ## The kite driver's mails stay in their tables -/

/-- More ids in a row are fewer, too. -/
theorem IdSource.Gives.mono {band n k : ℕ} {st : σ} (h : src.Gives band n st) (hk : k ≤ n) :
    src.Gives band k st := by
  induction k generalizing n st with
  | zero => trivial
  | succ k ih =>
    cases n with
    | zero => omega
    | succ n => exact ⟨h.1, ih h.2 (by omega)⟩

/-- The loop reaches a descriptor as long as there are ids. -/
theorem rxdFill_allIn (band pkt : ℕ) (hd : t.size ≤ d.size) (n i : ℕ) (r : RxdRing) (st : σ) :
    AllIn (rxdFill src band pkt t d n i r st).2 ↔
      ∀ k < n, src.Gives band (k + 1) st → i + k < t.size := by
  induction n generalizing i r st with
  | zero => exact iff_of_true allIn_nil fun k hk => absurd hk (Nat.not_lt_zero k)
  | succ n ih =>
    unfold rxdFill
    cases halloc : src.alloc band st with
    | mk id next =>
      cases id with
      | none =>
        refine iff_of_true allIn_nil ?_
        intro k _ hgives
        have hsome := hgives.1
        rw [halloc] at hsome
        cases hsome
      | some id =>
        have hnext : ∀ k, src.Gives band (k + 1) st ↔ src.Gives band k next := by
          intro k
          have hone : src.Gives band (k + 1) st ↔
              (src.alloc band st).1.isSome ∧ src.Gives band k (src.alloc band st).2 := Iff.rfl
          rw [hone, halloc]
          exact and_iff_right rfl
        dsimp only
        rw [allIn_cons, allIn_cons, ih]
        constructor
        · rintro ⟨hfirst, -, hrest⟩ k hk hgives
          cases k with
          | zero => exact hfirst
          | succ k =>
            have := hrest k (by omega) ((hnext (k + 1)).mp hgives)
            omega
        · intro hall
          have hfirst := hall 0 (Nat.zero_lt_succ n) ((hnext 0).mpr trivial)
          refine ⟨hfirst, Nat.lt_of_lt_of_le hfirst hd, ?_⟩
          intro k hk hgives
          have := hall (k + 1) (by omega) ((hnext (k + 1)).mpr hgives)
          omega

/-- The whole loop. -/
theorem rxdFill_allIn_zero (band pkt : ℕ) (hd : t.size ≤ d.size) (n : ℕ) (r : RxdRing) (st : σ) :
    AllIn (rxdFill src band pkt t d n 0 r st).2 ↔
      n ≤ t.size ∨ ¬src.Gives band (t.size + 1) st := by
  rw [rxdFill_allIn band pkt hd]
  constructor
  · intro hall
    by_contra hnot
    obtain ⟨hlt, hgives⟩ := not_or.mp hnot
    have := hall t.size (by omega) (not_not.mp hgives)
    omega
  · rintro hle k hk hgives
    rcases hle with hle | hout
    · omega
    · by_contra hge
      exact hout (hgives.mono (by omega))

theorem wifiInitRxd_allIn (band pkt tick : ℕ) (hd : t.size ≤ d.size) (used : Bool) (n : ℕ)
    (r : RxdRing) (st : σ) :
    AllIn (wifiInitRxd src band pkt tick t d used n r st).2 ↔
      RingFits src band t (used = true) n st := by
  unfold wifiInitRxd RingFits
  dsimp only
  cases used with
  | false =>
    rw [allIn_append, rxdFill_allIn_zero band pkt hd]
    simp [allIn_nil]
  | true =>
    rw [allIn_append, rxdFill_allIn_zero band pkt hd]
    simp only [if_true, allIn_range, not_true_eq_false, false_and, or_false]
    exact ⟨fun h => h.1, fun h => ⟨h, .inl h⟩⟩

/-- The flags of both bands are looked at inside. -/
theorem waitScan_allIn (w2 w5 : ℕ → BitVec 8) (is : List ℕ) (his : ∀ i ∈ is, i < 16) :
    AllIn (waitScan w2 w5 is).2 := by
  induction is with
  | nil => exact allIn_nil
  | cons i rest ih =>
    obtain ⟨hi, hrest⟩ := List.forall_mem_cons.mp his
    unfold waitScan
    split
    · exact allIn_one.mpr hi
    · split
      · exact allIn_cons.mpr ⟨hi, allIn_one.mpr hi⟩
      · exact allIn_cons.mpr ⟨hi, allIn_cons.mpr ⟨hi, ih hrest⟩⟩

theorem npuSetWaitState_allIn {port : ℕ} (hport : port < 32) (state : BitVec 8)
    (s : KiteState σ) : AllIn (npuSetWaitState port state s).2 := by
  have hrange : ∀ i ∈ List.range 16, i < 16 := fun i hi => List.mem_range.mp hi
  unfold npuSetWaitState
  dsimp only
  split
  · next hle =>
    have hin : port < Table.waitState2g.size := show port < 16 by omega
    exact allIn_cons.mpr ⟨hin, waitScan_allIn _ _ _ hrange⟩
  · have hin : port - 16 < Table.waitState5g.size := show port - 16 < 16 by omega
    exact allIn_cons.mpr ⟨hin, waitScan_allIn _ _ _ hrange⟩

theorem npuSetBandEnable_allIn (band : ℕ) (s : KiteState σ) :
    AllIn (npuSetBandEnable band s).2 := by
  unfold npuSetBandEnable
  split
  · exact allIn_nil
  · exact allIn_one.mpr (show band < 2 by omega)

theorem tbl2g_size_le (s : KiteState σ) : s.tbl2g.size ≤ Table.rxd2g.size := by
  unfold KiteState.tbl2g
  split
  · exact Nat.zero_le _
  · exact le_rfl

theorem wifiInitRxd5g_allIn (n band : ℕ) (s : KiteState σ) :
    AllIn (wifiInitRxd5g src n band s).2 ↔
      RingFits src band .rxd5gBufid (s.ring5g.initDone = true) n s.ids := by
  have hres : (wifiInitRxd5g src n band s).2 = (wifiInitRxd src band s.pktBufAddr s.tick
      .rxd5gBufid .rxd5g s.ring5g.initDone n s.ring5g s.ids).2 := rfl
  have hsize : Table.rxd5gBufid.size ≤ Table.rxd5g.size := Nat.le_refl 1536
  rw [hres, wifiInitRxd_allIn _ _ _ hsize]

theorem wifiInitRxd2g_allIn (n band : ℕ) (s : KiteState σ) :
    AllIn (wifiInitRxd2g src n band s).2 ↔
      RingFits src band s.tbl2g (s.bufid2gBase ≠ 0 ∧ s.ring2g.initDone = true) n s.ids := by
  have hres : (wifiInitRxd2g src n band s).2 = (wifiInitRxd src band s.pktBufAddr s.tick s.tbl2g
      .rxd2g (s.bufid2gBase ≠ 0 ∧ s.ring2g.initDone = true) n s.ring2g s.ids).2 := rfl
  rw [hres, wifiInitRxd_allIn _ _ _ (tbl2g_size_le s), decide_eq_true_iff]

theorem npuSetRxdInit_allIn (n band : ℕ) (s : KiteState σ) :
    AllIn (npuSetRxdInit src n band s).2 ↔
      if band = 1 then RingFits src 1 .rxd5gBufid (s.ring5g.initDone = true) n s.ids
      else RingFits src band s.tbl2g (s.bufid2gBase ≠ 0 ∧ s.ring2g.initDone = true) n s.ids := by
  unfold npuSetRxdInit
  by_cases hband : band = 1
  · rw [if_pos hband, if_pos hband, wifiInitRxd5g_allIn]
  · rw [if_neg hband, if_neg hband, wifiInitRxd2g_allIn]

theorem wifiMailSet_allIn (fn : KiteFn) (msg : ℕ → BitVec 32) (s : KiteState σ) :
    AllIn (wifiMailSet src fn msg s).2 ↔ KiteFits src fn msg s := by
  have hband : mailBand msg < 16 := Nat.mod_lt _ (by decide)
  cases fn with
  | setDesc =>
    exact npuSetRxdInit_allIn (msg 2).toNat (mailBand msg) (wifiNpuInit (mailBand msg) s)
  | setTranToCpu => exact iff_of_true (npuSetWaitState_allIn (by omega) _ _) trivial
  | setPcieState => exact iff_of_true (npuSetBandEnable_allIn _ _) trivial
  | setRatelimit =>
    have hone : AllIn [⟨.ratelimit, ratelimitIdx msg⟩] ↔ ratelimitIdx msg < 32 :=
      @allIn_one .ratelimit (ratelimitIdx msg)
    exact hone

/-! ## Every mail -/

/-- A mail's handler stays inside its tables exactly if the mail fits. -/
theorem handleMail_inTable_iff (src : IdSource σ) (s : State σ) (m : Mail) :
    AllIn (handleMail src s m).2 ↔ m.Fits src s := by
  cases m with
  | dba m => exact dbaMailHandler_allIn m s.dba
  | tunnel base => exact tunnelMailAccesses_allIn base
  | kite fn msg => exact wifiMailSet_allIn fn msg s.kite

/-- A mail with only zeros. -/
def zeroDbaMail : DbaMail :=
  ⟨0, 0, 0, 0, 0, 0, 0, 0, 0, 0, 0, 0, 0, 0, 0, 0, 0, 0, 0, 0, 0⟩

/-- Bandwidth for T-CONT 128. -/
def tcontMail : DbaMail := { zeroDbaMail with funcType := 1, funcId := 6, tcontId := 128 }

/-- An rx ring before its initialisation. -/
def noRing : RxdRing := ⟨fun _ => 0, fun _ => ⟨0, 0⟩, false, 0, 0⟩

/-- The data after boot. -/
def bootState : State ℕ where
  dba := ⟨0, 0, 0, 0, 0, 0, ⟨false, 0, fun _ => Dba.noTcont⟩, 0, 46, 0, 0, fun _ => 0, fun _ => 0⟩
  tunnel := ⟨⟨fun _ => Memory.byte 0, fun _ => true, 0, [], 0x10000, 1500, fun _ => 0, 0, 0, 0x200,
    ⟨0, 0, 0⟩, ⟨0, 0, 0⟩⟩, fun _ => 0⟩
  kite := ⟨0, noRing, noRing, 0, 0, 0, 0, fun _ => 0, fun _ => 0, 0, 0, false, fun _ => 0,
    fun _ => 0⟩

/-- A T-CONT id of 128 makes the handler write past the configurations. -/
theorem handleMail_outside :
    ¬ ∀ (s : State ℕ) (m : Mail),
      AllIn (handleMail ⟨fun _ st => (none, st), fun _ st _ => st⟩ s m).2 := by
  intro hall
  have hfits := (dbaMailHandler_allIn tcontMail bootState.dba).mp (hall bootState (.dba tcontMail))
  have hfn : tcontMail.fn = some .tcontDba := by decide
  have hlt := hfits.1 rfl (.inl hfn)
  exact absurd hlt (by decide)

end ClankerNPU.HostMail
