import ClankerNPU.Lib.Locks
import ClankerNPU.Lib.StepSystem
import ClankerNPU.Mbox.Dispatch

/-! # Hart 0 of the AN7552 eagle build

    Hart 0 runs the queue drain and the rx ring refill, and takes the
    mailbox, timer, console and PPE interrupts. Every function is the list
    of what it does to the mutexes and the interrupt masks; what it
    computes in between is `work`, and what it finds in memory, in the
    device registers or in the other hart's indices is an argument. A
    handler that never returns makes no step. -/

namespace ClankerNPU.Hart0

/-! ## Operations -/

inductive Op where
  | hwMutexLock (id : ℕ)
  | hwMutexUnlock (id : ℕ)
  | plicDisable (src : ℕ)
  | plicEnable (src : ℕ)
  | irqSave
  /-- `irq_restore` where `irq_save` found interrupts on. -/
  | irqRestore
  | work
deriving DecidableEq

abbrev Code := List Op

/-- `(id * 4) & HW_MUTEX_OFF_MASK`: ids of one offset are one mutex. -/
def mutexOff (id : ℕ) : ℕ := (id * 4) &&& 0x3C

/-- What an operation does to the mutexes of the hart. -/
def Op.act : Op → LockAct ℕ
  | hwMutexLock id => .acquire (mutexOff id)
  | hwMutexUnlock id => .release (mutexOff id)
  | _ => .skip

/-- What an interrupt can tell of the hart. -/
structure Hart where
  /-- offsets of the mutexes it holds -/
  held : List ℕ
  /-- sources masked in its PLIC -/
  masked : List ℕ
  /-- `mstatus.MIE` -/
  mie : Bool

/-- Nothing held, nothing masked. -/
def idle : Hart := ⟨[], [], true⟩

def Op.exec (op : Op) (h : Hart) : Hart :=
  match op with
  | plicDisable src => { h with masked := src :: h.masked }
  | plicEnable src => { h with masked := h.masked.filter (· ≠ src) }
  | irqSave => { h with mie := false }
  | irqRestore => { h with mie := true }
  | op => { h with held := op.act.after h.held }

/-! ## Mutex ids -/

def eagleTxqMutex : ℕ := 10
def rxBufidAllocMutex : ℕ := 12
def rxBufidFreeMutex : ℕ := 13
def mboxNotifyMutex : ℕ := 14
def printfMutexDesc : ℕ := 15
def sramBufMutex : ℕ := 18

/-! ## Services -/

/-- A line on the console; nothing once the host has set `MIB21`. -/
def npuPrintf (mib21 : Bool) : Code :=
  if mib21 then [.work]
  else [.irqSave, .hwMutexLock printfMutexDesc, .work, .hwMutexUnlock printfMutexDesc, .irqRestore]

/-- `npu_printf` inside an interrupt handler, where interrupts are off and
    stay off. -/
def npuPrintfIsr (mib21 : Bool) : Code :=
  if mib21 then [.work]
  else [.hwMutexLock printfMutexDesc, .work, .hwMutexUnlock printfMutexDesc]

def bootPrintf : Code :=
  [.hwMutexLock printfMutexDesc, .work, .hwMutexUnlock printfMutexDesc]

/-- What the SRAM allocator finds: both limits reached, the type there
    already, no room behind the last block, or room. -/
inductive SramRoom where
  | overMax (mib21 : Bool)
  | exist (mib21 : Bool)
  | fail (mib21 : Bool)
  | fresh

/-- `sram_buf_alloc` of a type that is in the size table. -/
def sramBufAlloc : SramRoom → Code
  | .overMax mib21 => [.hwMutexLock sramBufMutex, .hwMutexUnlock sramBufMutex] ++ npuPrintfIsr mib21
  | .exist mib21 =>
    .hwMutexLock sramBufMutex :: (npuPrintfIsr mib21 ++ [.hwMutexUnlock sramBufMutex])
  | .fail mib21 =>
    .hwMutexLock sramBufMutex :: (npuPrintfIsr mib21 ++ [.hwMutexUnlock sramBufMutex])
  | .fresh => [.hwMutexLock sramBufMutex, .work, .hwMutexUnlock sramBufMutex]

def bufIdReturn : Code :=
  [.hwMutexLock rxBufidFreeMutex, .work, .hwMutexUnlock rxBufidFreeMutex]

def bufIdAllocRing : Code :=
  [.hwMutexLock rxBufidAllocMutex, .work, .hwMutexUnlock rxBufidAllocMutex]

def rxBufidPoolReset : Code :=
  [.hwMutexLock rxBufidFreeMutex, .hwMutexLock rxBufidAllocMutex, .work,
    .hwMutexUnlock rxBufidFreeMutex, .hwMutexUnlock rxBufidAllocMutex]

def eaglePktEnqueue : Code :=
  [.hwMutexLock eagleTxqMutex, .work, .hwMutexUnlock eagleTxqMutex]

/-! ## The loop -/

/-- `eagle_drain_free`: the free with the PPE interrupt masked. -/
def eagleDrainFree : Code := [.plicDisable 95] ++ bufIdReturn ++ [.plicEnable 95]

/-- The entry at the read index of a packet queue: not owned, owned with a
    bad id or no length, or a frame. -/
inductive TxqEntry where
  | empty
  | bad
  | frame

def eagleTxqDrain : TxqEntry → Code
  | .empty => [.work]
  | .bad => [.work]
  | .frame => [.work] ++ eagleDrainFree ++ [.work]

/-- Every segment of a collected frame is freed, in order or not. -/
def eagleMsegDrain (segs : ℕ) : Code :=
  [.work] ++ (List.range segs).flatMap fun _ => [.work] ++ eagleDrainFree ++ [.work]

/-- A descriptor of the rx ring: with the chip, or handed back, and is
    there an id for it. -/
inductive RxSlot where
  | chip
  | handedBack (id : Bool)

/-- `eagle_rx_ring_sweep` over the descriptors it meets, up to the budget. -/
def eagleRxRingSweep : (budget : ℕ) → List RxSlot → Code
  | 0, _ => [.work]
  | _ + 1, [] => [.work]
  | _ + 1, .chip :: _ => [.work]
  | _ + 1, .handedBack false :: _ => [.work] ++ bufIdAllocRing ++ [.work]
  | budget + 1, .handedBack true :: slots =>
    [.work] ++ bufIdAllocRing ++ [.work] ++ eagleRxRingSweep budget slots

/-- `EAGLE_REFILL_BUDGET` -/
def eagleRefillBudget : ℕ := 1536

/-- What one turn of the loop finds. -/
structure Turn where
  /-- lines the debug service prints, and is the console off for each -/
  dbgLines : List Bool
  mib21 : Bool
  hostadptTxRingReady : Bool
  txq0 : TxqEntry
  txq1 : TxqEntry
  /-- segments of the frame in the multi-segment queue -/
  mseg1 : ℕ
  slots0 : List RxSlot
  slots1 : List RxSlot

def npuDbgPoll (t : Turn) : Code := [.work] ++ t.dbgLines.flatMap npuPrintf

/-- The drains and sweeps of one pass. -/
def eaglePass (t : Turn) : Code :=
  (if t.hostadptTxRingReady then
    eagleTxqDrain t.txq0 ++ eagleTxqDrain t.txq1 ++ eagleMsegDrain t.mseg1
  else []) ++
  eagleRxRingSweep eagleRefillBudget t.slots0 ++ eagleRxRingSweep eagleRefillBudget t.slots1 ++
  [.work]

/-- The flags `eagle_core0_loop` reads. -/
structure Flags where
  eagleInitDone : Bool
  eagleRxEn : Bool
  eagleTxEn : Bool
  eagleRxRingInitDone0 : Bool
  eagleRxRingInitDone1 : Bool

/-- Where `eagle_core0_loop` stands: waiting for the rings, at the top of
    a pass, or at the test of `eagle_rx_en` in it. -/
inductive Stage where
  | waiting
  | top
  | rxTest
deriving DecidableEq

/-- `eagle_core0_loop`, from one reading of the flags to the next. -/
def eagleCore0Loop (f : Flags) (t : Turn) : Stage → Stage × Code
  | .waiting =>
    if f.eagleInitDone && f.eagleRxEn && f.eagleTxEn && f.eagleRxRingInitDone0 &&
        f.eagleRxRingInitDone1 then
      (.top, [.work] ++ npuPrintf t.mib21)
    else (.waiting, npuDbgPoll t)
  | .top => (.rxTest, npuDbgPoll t)
  | .rxTest =>
    if f.eagleRxEn then (.top, eaglePass t)
    else (.rxTest, npuDbgPoll t ++ [.work])

/-! ## Mails -/

/-- The first words of the message a mail points at. -/
structure Msg where
  word0 : BitVec 32
  word1 : BitVec 32
  word2 : BitVec 32

/-- `(msg[0] >> 4) & 0xF` -/
def Msg.funcType (m : Msg) : ℕ := ((m.word0 >>> 4) &&& 0xF#32).toNat

/-- `msg[0] & 0xF` -/
def Msg.iface (m : Msg) : ℕ := (m.word0 &&& 0xF#32).toNat

/-- `msg[1]` -/
def Msg.funcId (m : Msg) : ℕ := m.word1.toNat

/-- What a mail handler finds while it runs. -/
structure Found where
  /-- is the console off for its n-th line -/
  mib21 : ℕ → Bool
  /-- the SRAM allocator at its n-th call -/
  sram : ℕ → SramRoom
  /-- the ids the rx buffer pool gives before it is empty -/
  ids : ℕ
  /-- how many lines a handler prints that takes no other mutex -/
  lines : ℕ
  /-- the host does not take the notification in time -/
  timeout : Bool

/-- A handler that prints at most. -/
def printOnly (e : Found) : Code :=
  [.work] ++ (List.range e.lines).flatMap fun n => npuPrintfIsr (e.mib21 n)

def eagleQueueInit (e : Found) : Code :=
  [.work] ++ sramBufAlloc (e.sram 0) ++ sramBufAlloc (e.sram 1) ++ [.work]

/-- `EAGLE_RX_RING_MAX_IDX` -/
def eagleRxRingMaxIdx : ℕ := 1535

/-- The ring size after the check. -/
def rxRingSize (ringSize : BitVec 32) : ℕ :=
  if eagleRxRingMaxIdx < (ringSize - 1#32).toNat then eagleRxRingMaxIdx + 1 else ringSize.toNat

def eagleRxRingInit (ringSize : BitVec 32) (e : Found) : Code :=
  (if eagleRxRingMaxIdx < (ringSize - 1#32).toNat then npuPrintfIsr (e.mib21 0) else []) ++
  ((List.range (min (rxRingSize ringSize) e.ids)).flatMap fun _ => bufIdAllocRing ++ [.work]) ++
  (if e.ids < rxRingSize ringSize then bufIdAllocRing ++ npuPrintfIsr (e.mib21 1) else [.work])

/-- `npu_mbox_init_rxd_wrapper`: only the rx rings take buffer ids. -/
def eagleMailSetDesc (m : Msg) (e : Found) : Code :=
  -- EAGLE_RING_RX0, EAGLE_RING_RX1
  if m.iface = 0 ∨ m.iface = 1 then eagleQueueInit e ++ eagleRxRingInit m.word2 e
  else printOnly e

/-- `tdma_bmgr_reinit` in mode 0, once the PPE has returned its buffers. -/
def tdmaBmgrReinit : Code := [.work] ++ rxBufidPoolReset

/-- `counter_init`, as the n-th of the mail. -/
def counterInit (e : Found) (n : ℕ) : Code :=
  npuPrintfIsr (e.mib21 n) ++ sramBufAlloc (e.sram (n + 1)) ++ [.work]

/-- `eagle_inode_txrx_reg`: case 6 is the restart after a stop. -/
def eagleMailSetTxrxReg (m : Msg) (e : Found) : Code :=
  if m.iface = 6 then
    tdmaBmgrReinit ++
    -- eagle_msdu_pg_pool_init
    sramBufAlloc (e.sram 0) ++ [.work] ++
    counterInit e 0 ++ counterInit e 1 ++ counterInit e 2
  else printOnly e

/-- `set_wait_func_table` -/
def setWaitFunc (m : Msg) (e : Found) : Code :=
  if m.funcId = 1 then eagleMailSetDesc m e
  else if m.funcId = 24 then eagleMailSetTxrxReg m e
  else printOnly e

/-- `get_wait_func_table`: only the debug counter mail calls the SRAM
    allocator. -/
def getWaitFunc (m : Msg) (e : Found) : Code :=
  if m.funcId = 3 then sramBufAlloc (e.sram 0) ++ [.work]
  else printOnly e

def wifiMailDispatch (m : Msg) (e : Found) : Code :=
  if m.funcType = 1 then
    if 30 < m.funcId then npuPrintfIsr (e.mib21 0) else setWaitFunc m e
  else if m.funcType = 2 then
    if m.funcId ≠ 0 then npuPrintfIsr (e.mib21 0) else []
  else if m.funcType = 3 then
    if 9 < m.funcId then npuPrintfIsr (e.mib21 0) else getWaitFunc m e
  else if m.funcType = 4 then
    if m.funcId ≠ 0 then npuPrintfIsr (e.mib21 0) else []
  else npuPrintfIsr (e.mib21 0)

/-- The callback word the isr finds in a slot. -/
inductive Handler where
  | null
  | wifiMailDispatch
  | tunnelMailDispatch
  /-- an address `mailbox_init` put nowhere -/
  | wild (code : Code)

/-- `callbacks` of core 0 as `mailbox_init` leaves them. -/
def registered (slot : ℕ) : Handler :=
  if slot = 0 then .wifiMailDispatch
  else if slot = 1 then .tunnelMailDispatch
  else .null

/-- `tunnel_mail_dispatch` has no handler in its table here. -/
def Handler.code (m : Msg) (e : Found) : Handler → Code
  | null => []
  | wifiMailDispatch => Hart0.wifiMailDispatch m e
  | tunnelMailDispatch => [.work]
  | wild code => code

def mboxNotifyHost (e : Found) : Code :=
  [.hwMutexLock mboxNotifyMutex] ++
  ([.work] ++ if e.timeout then npuPrintfIsr (e.mib21 e.lines) else []) ++
  [.hwMutexUnlock mboxNotifyMutex]

/-- A mailbox interrupt: `cleared` is the check of the interrupt status,
    `handler` the word in the slot of the mail. -/
structure MboxIrq where
  src : ℕ
  cleared : Bool
  mail : Mbox.Mail
  msg : Msg
  handler : Handler
  found : Found

def mboxIsr (i : MboxIrq) : Code :=
  if i.src - 8 ≠ 0 then npuPrintfIsr (i.found.mib21 0)
  else if i.cleared = false then npuPrintfIsr (i.found.mib21 0)
  else
    let rptr := Mbox.setResponse (i.mail.ctrl3 &&& 0xFFFF#32)
    if rptr &&& 0x20#32 ≠ 0#32 then [.work]
    else
      [.work] ++ i.handler.code i.msg i.found ++
      if rptr &&& 1#32 ≠ 0#32 then [.work] else mboxNotifyHost i.found

/-! ## Interrupts -/

/-- A buffer the PPE returns: to free, or of an unbound flow, and is the
    packet queue full. -/
inductive PpeEntry where
  | free
  | unbound (full : Bool)

def ppeReturn : PpeEntry → Code
  | .free => bufIdReturn
  | .unbound full => eaglePktEnqueue ++ if full then bufIdReturn else []

def ppeWifiBufidIsr (entries : List PpeEntry) : Code := [.work] ++ entries.flatMap ppeReturn

def timerIsr : Code := [.work]

def uartRxIsr (lines : ℕ) : Code := [.work] ++ (List.range lines).flatMap fun _ => bootPrintf

inductive Irq where
  | mbox (i : MboxIrq)
  | timer
  | uartRx (lines : ℕ)
  | ppe (entries : List PpeEntry)

/-- The PLIC source. -/
def Irq.src : Irq → ℕ
  | mbox i => i.src
  | timer => 18
  | uartRx _ => 22
  | ppe _ => 95

def Irq.code : Irq → Code
  | mbox i => mboxIsr i
  | timer => timerIsr
  | uartRx lines => uartRxIsr lines
  | ppe entries => ppeWifiBufidIsr entries

/-- The sources enabled on hart 0: the mailboxes of both cores, the timer,
    the console and the PPE. -/
def enabledSources : List ℕ := [8, 9, 18, 22, 95]

/-- The hart takes an interrupt that is enabled and not masked. A handler
    runs with interrupts off, so handlers do not nest. -/
def Irq.Taken (i : Irq) (h : Hart) : Prop :=
  h.mie = true ∧ i.src ∈ enabledSources ∧ i.src ∉ h.masked

instance (i : Irq) (h : Hart) : Decidable (i.Taken h) :=
  inferInstanceAs (Decidable (_ ∧ _ ∧ _))

/-- The mail makes a call. -/
def MboxIrq.calls (i : MboxIrq) : Bool :=
  i.src - 8 = 0 && i.cleared && i.mail.ctrl3 &&& 0x20#32 = 0#32

/-- A call of `wifi_mail_dispatch`. -/
def MboxIrq.wifi (i : MboxIrq) : Bool := i.calls && Mbox.funcIdx i.mail.ctrl3 = 0

/-- The set message that starts rx ring 0 or 1. -/
def Msg.ringInit (m : Msg) : Bool :=
  m.funcType = 1 && m.funcId = 1 && (m.iface = 0 || m.iface = 1)

/-- A set message for `eagle_inode_txrx_reg`. -/
def Msg.txrxReg (m : Msg) : Bool := m.funcType = 1 && m.funcId = 24

/-- The restart after a stop. -/
def Msg.restart (m : Msg) : Bool := m.txrxReg && m.iface = 6

/-- What a mail does to the flags of the loop. -/
def Flags.afterMail (f : Flags) (i : MboxIrq) : Flags :=
  if i.wifi && i.msg.ringInit then
    -- eagle_rx_ring_init fails when the pool runs out
    if i.found.ids < rxRingSize i.msg.word2 then f
    else if i.msg.iface = 0 then { f with eagleRxRingInitDone0 := true }
    else { f with eagleRxRingInitDone1 := true }
  else if i.wifi && i.msg.txrxReg then
    if i.msg.iface = 2 then { f with eagleRxEn := true, eagleTxEn := true }
    else if i.msg.iface = 4 then { f with eagleRxEn := false, eagleTxEn := false }
    else if i.msg.iface = 7 then { f with eagleTxEn := true }
    else f
  else f

def Irq.flags (f : Flags) : Irq → Flags
  | mbox i => f.afterMail i
  | _ => f

/-! ## Runs -/

structure State where
  stage : Stage
  flags : Flags
  /-- the operations left of the piece the loop is in -/
  rest : Code
  hart : Hart
  /-- the mutexes the hart acquired although it held them -/
  reacquired : List ℕ

/-- The hart goes on to the next piece of the loop, does its next
    operation, or takes an interrupt. -/
inductive Action where
  | next (t : Turn)
  | run
  | irq (i : Irq)

def step (s : State) : Action → Option State
  | .next t =>
    if s.rest = [] then
      some { s with
        stage := (eagleCore0Loop s.flags t s.stage).1
        rest := (eagleCore0Loop s.flags t s.stage).2 }
    else none
  | .run =>
    match s.rest with
    | [] => none
    | op :: rest =>
      some { s with
        rest := rest
        hart := op.exec s.hart
        reacquired := s.reacquired ++ op.act.clash s.hart.held }
  | .irq i =>
    if i.Taken s.hart then
      some { s with
        flags := i.flags s.flags
        hart := { s.hart with held := Locks.heldAfter Op.act i.code s.hart.held }
        reacquired := s.reacquired ++ Locks.reacquired Op.act i.code s.hart.held }
    else none

/-- Hart 0 from the start of its loop on; mails may have set the flags
    before. -/
def hart0System : StepSystem State Action where
  init s := s.stage = .waiting ∧ s.rest = [] ∧ s.hart = idle ∧ s.reacquired = []
  step s a s' := step s a = some s'

end ClankerNPU.Hart0
