import ClankerNPU.Hart0.Model

/-! # No mutex twice

    The loop holds one mutex at a time: the console's with interrupts off,
    the free side of the id pool with the PPE interrupt masked, the
    allocation side with neither. The handlers take the same mutexes, so
    two mails can arrive where they must not. -/

namespace ClankerNPU.Hart0

open Locks

/-! ## What is asked -/

/-- The call of a mail finds what `mailbox_init` put in its slot. -/
def Irq.Registered : Irq → Prop
  | mbox i => i.calls = true → i.handler = registered (Mbox.funcIdx i.mail.ctrl3)
  | _ => True

/-- A ring start does not arrive inside `buf_id_alloc_ring`, a restart
    neither there nor inside `buf_id_return`. -/
def Irq.Apart (h : Hart) : Irq → Prop
  | mbox i => i.wifi = true →
      (i.msg.ringInit = true ∨ i.msg.restart = true → mutexOff rxBufidAllocMutex ∉ h.held) ∧
      (i.msg.restart = true → mutexOff rxBufidFreeMutex ∉ h.held)
  | _ => True

def MailsApart (s : State) : Action → Prop
  | .irq i => i.Registered ∧ i.Apart s.hart
  | _ => True

/-! ## The handlers -/

section Handlers

variable {S : List ℕ} (m : Msg) (e : Found) (i : MboxIrq)

theorem bracketed_work : Bracketed Op.act S [.work] := .skip S rfl

theorem bracketed_section (id : ℕ) :
    Bracketed Op.act [mutexOff id] [.hwMutexLock id, .work, .hwMutexUnlock id] := by
  have h : Bracketed Op.act [mutexOff id] (.hwMutexLock id :: ([.work] ++ [.hwMutexUnlock id])) :=
    .critical rfl rfl bracketed_work List.not_mem_nil
  exact h

theorem bracketed_npuPrintfIsr (mib21 : Bool) :
    Bracketed Op.act [mutexOff printfMutexDesc] (npuPrintfIsr mib21) := by
  cases mib21 with
  | true => exact bracketed_work
  | false => exact bracketed_section printfMutexDesc

/-- The mutexes of the services below the handlers. -/
def serviceMutexes : List ℕ := [mutexOff sramBufMutex, mutexOff printfMutexDesc]

theorem bracketed_print (mib21 : Bool) : Bracketed Op.act serviceMutexes (npuPrintfIsr mib21) :=
  (bracketed_npuPrintfIsr mib21).mono (by decide)

theorem bracketed_sramBufAlloc (r : SramRoom) :
    Bracketed Op.act serviceMutexes (sramBufAlloc r) := by
  have hlock (mib21 : Bool) : Bracketed Op.act serviceMutexes
      (.hwMutexLock sramBufMutex :: (npuPrintfIsr mib21 ++ [.hwMutexUnlock sramBufMutex])) :=
    .critical rfl rfl (bracketed_npuPrintfIsr mib21) (by decide)
  cases r with
  | overMax mib21 =>
    have hempty : Bracketed Op.act [mutexOff sramBufMutex]
        (.hwMutexLock sramBufMutex :: ([] ++ [.hwMutexUnlock sramBufMutex])) :=
      .critical rfl rfl (.nil _) List.not_mem_nil
    exact (hempty.mono (by decide)).append (bracketed_print mib21)
  | exist mib21 => exact hlock mib21
  | fail mib21 => exact hlock mib21
  | fresh => exact (bracketed_section sramBufMutex).mono (by decide)

theorem bracketed_printOnly : Bracketed Op.act serviceMutexes (printOnly e) :=
  bracketed_work.append (.flatMap fun _ _ => bracketed_print _)

theorem bracketed_eagleQueueInit : Bracketed Op.act serviceMutexes (eagleQueueInit e) :=
  ((bracketed_work.append (bracketed_sramBufAlloc _)).append (bracketed_sramBufAlloc _)).append
    bracketed_work

theorem bracketed_counterInit (n : ℕ) : Bracketed Op.act serviceMutexes (counterInit e n) :=
  ((bracketed_print _).append (bracketed_sramBufAlloc _)).append bracketed_work

/-- A ring start takes ids in a loop, one section each. -/
theorem bracketed_eagleRxRingInit (ringSize : BitVec 32) :
    Bracketed Op.act (mutexOff rxBufidAllocMutex :: serviceMutexes)
      (eagleRxRingInit ringSize e) := by
  have hprint (mib21 : Bool) :
      Bracketed Op.act (mutexOff rxBufidAllocMutex :: serviceMutexes) (npuPrintfIsr mib21) :=
    (bracketed_npuPrintfIsr mib21).mono (by decide)
  have halloc : Bracketed Op.act (mutexOff rxBufidAllocMutex :: serviceMutexes) bufIdAllocRing :=
    (bracketed_section rxBufidAllocMutex).mono (by decide)
  have hids (n : ℕ) : Bracketed Op.act (mutexOff rxBufidAllocMutex :: serviceMutexes)
      ((List.range n).flatMap fun _ => bufIdAllocRing ++ [.work]) :=
    .flatMap fun _ _ => halloc.append bracketed_work
  unfold eagleRxRingInit
  refine .append (.append ?_ (hids _)) ?_
  · split_ifs
    · exact hprint _
    · exact .nil _
  · split_ifs
    · exact halloc.append (hprint _)
    · exact bracketed_work

/-- The two pool mutexes, given back in the order they were taken. -/
theorem bracketed_rxBufidPoolReset :
    Bracketed Op.act [mutexOff rxBufidFreeMutex, mutexOff rxBufidAllocMutex]
      rxBufidPoolReset := by
  have hne : mutexOff rxBufidAllocMutex ≠ mutexOff rxBufidFreeMutex := by decide
  refine ⟨fun held hfree => ?_, fun held => ?_⟩
  · have h13 := hfree _ List.mem_cons_self
    have h12 := hfree _ (List.mem_cons_of_mem _ List.mem_cons_self)
    have h12' : mutexOff rxBufidAllocMutex ∉ mutexOff rxBufidFreeMutex :: held :=
      List.not_mem_cons_of_ne_of_not_mem hne h12
    simp only [rxBufidPoolReset, reacquired, Op.act, LockAct.clash, LockAct.after, if_neg h13,
      if_neg h12', List.append_nil]
  · have hback : (mutexOff rxBufidAllocMutex :: mutexOff rxBufidFreeMutex :: held).erase
        (mutexOff rxBufidFreeMutex) = mutexOff rxBufidAllocMutex :: held := by
      rw [List.erase_cons_tail (by decide), List.erase_cons_head]
    simp only [rxBufidPoolReset, heldAfter, Op.act, LockAct.after, hback, List.erase_cons_head]

/-- The mutexes a message for `wifi_mail_dispatch` may take. -/
def msgMutexes : List ℕ :=
  serviceMutexes ++ (if m.ringInit || m.restart then [mutexOff rxBufidAllocMutex] else []) ++
    (if m.restart then [mutexOff rxBufidFreeMutex] else [])

theorem mem_msgMutexes_of_service {l : ℕ} (h : l ∈ serviceMutexes) : l ∈ msgMutexes m :=
  List.mem_append_left _ (List.mem_append_left _ h)

theorem mem_msgMutexes_alloc (h : m.ringInit = true ∨ m.restart = true) :
    mutexOff rxBufidAllocMutex ∈ msgMutexes m := by
  refine List.mem_append_left _ (List.mem_append_right _ ?_)
  rw [if_pos (by rwa [Bool.or_eq_true])]
  exact List.mem_singleton.mpr rfl

theorem mem_msgMutexes_free (h : m.restart = true) :
    mutexOff rxBufidFreeMutex ∈ msgMutexes m := by
  refine List.mem_append_right _ ?_
  rw [if_pos h]
  exact List.mem_singleton.mpr rfl

theorem bracketed_eagleMailSetDesc (htype : m.funcType = 1) (hid : m.funcId = 1) :
    Bracketed Op.act (msgMutexes m) (eagleMailSetDesc m e) := by
  have hservice := fun l => @mem_msgMutexes_of_service m l
  unfold eagleMailSetDesc
  split_ifs with hring
  · have hinit : m.ringInit = true := by
      simp only [Msg.ringInit, htype, hid, Bool.and_eq_true, Bool.or_eq_true, decide_eq_true_eq,
        true_and]
      exact hring
    refine ((bracketed_eagleQueueInit e).mono hservice).append
      ((bracketed_eagleRxRingInit e _).mono fun l hl => ?_)
    rcases List.mem_cons.mp hl with rfl | hl
    · exact mem_msgMutexes_alloc m (Or.inl hinit)
    · exact hservice l hl
  · exact (bracketed_printOnly e).mono hservice

theorem bracketed_eagleMailSetTxrxReg (htype : m.funcType = 1) (hid : m.funcId = 24) :
    Bracketed Op.act (msgMutexes m) (eagleMailSetTxrxReg m e) := by
  have hservice := fun l => @mem_msgMutexes_of_service m l
  unfold eagleMailSetTxrxReg
  split_ifs with hcase
  · have hrestart : m.restart = true := by
      simp only [Msg.restart, Msg.txrxReg, htype, hid, hcase, decide_true, Bool.and_self]
    have hreset : Bracketed Op.act (msgMutexes m) rxBufidPoolReset :=
      bracketed_rxBufidPoolReset.mono fun l hl => by
        rcases List.mem_cons.mp hl with rfl | hl
        · exact mem_msgMutexes_free m hrestart
        · rw [List.mem_singleton.mp hl]
          exact mem_msgMutexes_alloc m (Or.inr hrestart)
    have hsram := (bracketed_sramBufAlloc (e.sram 0)).mono hservice
    have hcounter (n : ℕ) := (bracketed_counterInit e n).mono hservice
    exact (((((bracketed_work.append hreset).append hsram).append bracketed_work).append
      (hcounter 0)).append (hcounter 1)).append (hcounter 2)
  · exact (bracketed_printOnly e).mono hservice

theorem bracketed_wifiMailDispatch :
    Bracketed Op.act (msgMutexes m) (wifiMailDispatch m e) := by
  have hservice := fun l => @mem_msgMutexes_of_service m l
  have hprint := (bracketed_print (e.mib21 0)).mono hservice
  have hlines := (bracketed_printOnly e).mono hservice
  unfold wifiMailDispatch
  split_ifs with htype
  · exact hprint
  · unfold setWaitFunc
    split_ifs with hdesc hreg
    · exact bracketed_eagleMailSetDesc m e htype hdesc
    · exact bracketed_eagleMailSetTxrxReg m e htype hreg
    · exact hlines
  · exact hprint
  · exact .nil _
  · exact hprint
  · unfold getWaitFunc
    split_ifs
    · exact ((bracketed_sramBufAlloc _).mono hservice).append bracketed_work
    · exact hlines
  · exact hprint
  · exact .nil _
  · exact hprint

/-- The mutexes a mailbox interrupt may take. -/
def MboxIrq.mutexes : List ℕ :=
  mutexOff mboxNotifyMutex :: (if i.wifi then msgMutexes i.msg else serviceMutexes)

theorem MboxIrq.mem_mutexes_of_service {l : ℕ} (h : l ∈ serviceMutexes) : l ∈ i.mutexes := by
  refine List.mem_cons_of_mem _ ?_
  split_ifs
  · exact mem_msgMutexes_of_service _ h
  · exact h

/-- The isr of a mail that makes a call. -/
theorem mboxIsr_of_calls (h : i.calls = true) :
    mboxIsr i = [.work] ++ i.handler.code i.msg i.found ++
      if Mbox.setResponse (i.mail.ctrl3 &&& 0xFFFF#32) &&& 1#32 ≠ 0#32 then [.work]
      else mboxNotifyHost i.found := by
  simp only [MboxIrq.calls, Bool.and_eq_true, decide_eq_true_eq] at h
  obtain ⟨⟨hsrc, hcleared⟩, hstore⟩ := h
  unfold mboxIsr
  rw [if_neg (not_not.mpr hsrc), hcleared, if_neg (show ¬ (true = false) from nofun)]
  dsimp only
  rw [Mbox.storeBit_setResponse, if_neg (not_not.mpr hstore)]

/-- The isr of any other mail prints at most. -/
theorem bracketed_mboxIsr_of_not_calls (h : ¬ i.calls = true) :
    Bracketed Op.act serviceMutexes (mboxIsr i) := by
  unfold mboxIsr
  dsimp only
  split_ifs with hsrc hcleared hstore
  · exact bracketed_print _
  · exact bracketed_print _
  · exact bracketed_work
  all_goals
    -- the call path
    rw [Mbox.storeBit_setResponse] at hstore
    refine absurd ?_ h
    simp only [MboxIrq.calls, Bool.and_eq_true, decide_eq_true_eq]
    exact ⟨⟨not_not.mp hsrc, Bool.not_eq_false _ ▸ hcleared⟩, not_not.mp hstore⟩

theorem bracketed_mboxNotifyHost :
    Bracketed Op.act (mutexOff mboxNotifyMutex :: serviceMutexes) (mboxNotifyHost e) := by
  have hbody : Bracketed Op.act serviceMutexes
      ([.work] ++ if e.timeout then npuPrintfIsr (e.mib21 e.lines) else []) := by
    refine bracketed_work.append ?_
    split_ifs
    · exact bracketed_print _
    · exact .nil _
  exact .critical rfl rfl hbody (by decide)

theorem bracketed_mboxIsr (hreg : (Irq.mbox i).Registered) :
    Bracketed Op.act i.mutexes (mboxIsr i) := by
  have hservice := fun l => @MboxIrq.mem_mutexes_of_service i l
  by_cases hcalls : i.calls = true
  · have hhandler : Bracketed Op.act i.mutexes (i.handler.code i.msg i.found) := by
      rw [hreg hcalls]
      unfold registered
      split_ifs with h0 h1
      · have hwifi : i.wifi = true := by
          simp only [MboxIrq.wifi, hcalls, h0, decide_true, Bool.and_self]
        refine (bracketed_wifiMailDispatch i.msg i.found).mono fun l hl => ?_
        rw [MboxIrq.mutexes, if_pos hwifi]
        exact List.mem_cons_of_mem _ hl
      · exact bracketed_work
      · exact .nil _
    rw [mboxIsr_of_calls i hcalls]
    refine (bracketed_work.append hhandler).append ?_
    split_ifs
    · exact bracketed_work
    · refine (bracketed_mboxNotifyHost i.found).mono fun l hl => ?_
      rcases List.mem_cons.mp hl with rfl | hl
      · exact List.mem_cons_self
      · exact hservice l hl
  · exact (bracketed_mboxIsr_of_not_calls i hcalls).mono hservice

theorem bracketed_ppeWifiBufidIsr (entries : List PpeEntry) :
    Bracketed Op.act [mutexOff rxBufidFreeMutex, mutexOff eagleTxqMutex]
      (ppeWifiBufidIsr entries) := by
  have hfree : Bracketed Op.act [mutexOff rxBufidFreeMutex, mutexOff eagleTxqMutex]
      bufIdReturn := (bracketed_section rxBufidFreeMutex).mono (by decide)
  have hqueue : Bracketed Op.act [mutexOff rxBufidFreeMutex, mutexOff eagleTxqMutex]
      eaglePktEnqueue := (bracketed_section eagleTxqMutex).mono (by decide)
  refine bracketed_work.append (.flatMap fun entry _ => ?_)
  cases entry with
  | free => exact hfree
  | unbound full =>
    refine hqueue.append ?_
    cases full with
    | true => exact hfree
    | false => exact .nil _

theorem bracketed_uartRxIsr (lines : ℕ) :
    Bracketed Op.act [mutexOff printfMutexDesc] (uartRxIsr lines) :=
  bracketed_work.append (.flatMap fun _ _ => bracketed_section printfMutexDesc)

end Handlers

/-! ## What the two mails take -/

section Takes

variable {m : Msg} {i : MboxIrq} (e : Found)

theorem takes_bufIdAllocRing : Takes Op.act (mutexOff rxBufidAllocMutex) bufIdAllocRing :=
  .head rfl

theorem rxRingSize_pos (ringSize : BitVec 32) : 0 < rxRingSize ringSize := by
  unfold rxRingSize
  split_ifs with h
  · exact Nat.succ_pos _
  · -- a size of 0 wraps around
    by_contra hzero
    have h0 : ringSize = 0#32 := BitVec.eq_of_toNat_eq (by simpa using hzero)
    subst h0
    exact h (by decide)

/-- A ring start asks for an id at least once. -/
theorem takes_eagleRxRingInit (ringSize : BitVec 32) :
    Takes Op.act (mutexOff rxBufidAllocMutex) (eagleRxRingInit ringSize e) := by
  have hpos := rxRingSize_pos ringSize
  have hhead : Bracketed Op.act serviceMutexes
      (if eagleRxRingMaxIdx < (ringSize - 1#32).toNat then npuPrintfIsr (e.mib21 0) else []) := by
    split_ifs
    · exact bracketed_print _
    · exact .nil _
  unfold eagleRxRingInit
  rw [List.append_assoc]
  refine .right hhead ?_
  cases hn : min (rxRingSize ringSize) e.ids with
  | zero =>
    have hempty : e.ids < rxRingSize ringSize := by omega
    rw [if_pos hempty, List.range_zero, List.flatMap_nil, List.nil_append]
    exact .left takes_bufIdAllocRing
  | succ n =>
    rw [List.range_succ_eq_map, List.flatMap_cons]
    exact .left (.left (.left takes_bufIdAllocRing))

theorem takes_rxBufidPoolReset :
    Takes Op.act (mutexOff rxBufidFreeMutex) rxBufidPoolReset ∧
      Takes Op.act (mutexOff rxBufidAllocMutex) rxBufidPoolReset := by
  refine ⟨.head rfl, fun held hmem hnil => ?_⟩
  simp only [rxBufidPoolReset, reacquired, Op.act, LockAct.clash, LockAct.after,
    if_pos (List.mem_cons_of_mem _ hmem), List.append_eq_nil_iff] at hnil
  exact List.cons_ne_nil _ _ hnil.2.1

theorem takes_of_ringInit (h : m.ringInit = true) :
    Takes Op.act (mutexOff rxBufidAllocMutex) (wifiMailDispatch m e) := by
  simp only [Msg.ringInit, Bool.and_eq_true, Bool.or_eq_true, decide_eq_true_eq] at h
  obtain ⟨⟨htype, hid⟩, hring⟩ := h
  unfold wifiMailDispatch setWaitFunc eagleMailSetDesc
  rw [if_pos htype, if_neg (by omega), if_pos hid, if_pos hring]
  exact .right (bracketed_eagleQueueInit e) (takes_eagleRxRingInit e _)

theorem takes_of_restart (h : m.restart = true) :
    Takes Op.act (mutexOff rxBufidFreeMutex) (wifiMailDispatch m e) ∧
      Takes Op.act (mutexOff rxBufidAllocMutex) (wifiMailDispatch m e) := by
  simp only [Msg.restart, Msg.txrxReg, Bool.and_eq_true, decide_eq_true_eq] at h
  obtain ⟨⟨htype, hid⟩, hcase⟩ := h
  unfold wifiMailDispatch setWaitFunc eagleMailSetTxrxReg
  rw [if_pos htype, if_neg (by omega), if_neg (by omega), if_pos hid, if_pos hcase]
  have hreinit {l : ℕ} (hl : Takes Op.act l rxBufidPoolReset) : Takes Op.act l tdmaBmgrReinit :=
    .right (bracketed_work (S := [])) hl
  obtain ⟨hfree, halloc⟩ := takes_rxBufidPoolReset
  exact ⟨.left (.left (.left (.left (.left (hreinit hfree))))),
    .left (.left (.left (.left (.left (hreinit halloc)))))⟩

/-- What `wifi_mail_dispatch` takes its interrupt takes. -/
theorem takes_mboxIsr {l : ℕ} (hreg : (Irq.mbox i).Registered) (hwifi : i.wifi = true)
    (h : Takes Op.act l (wifiMailDispatch i.msg i.found)) : Takes Op.act l (mboxIsr i) := by
  simp only [MboxIrq.wifi, Bool.and_eq_true, decide_eq_true_eq] at hwifi
  have hhandler : i.handler = .wifiMailDispatch := by
    rw [hreg hwifi.1, hwifi.2]
    rfl
  rw [mboxIsr_of_calls i hwifi.1, hhandler]
  exact .left (.right (bracketed_work (S := [])) h)

end Takes

/-! ## The loop -/

/-- What an interrupt can meet on the hart: which mutexes are held, and
    what is masked while they are. -/
structure Calm (h : Hart) : Prop where
  held : ∀ l ∈ h.held, l = mutexOff rxBufidAllocMutex ∨ l = mutexOff rxBufidFreeMutex ∨
    l = mutexOff printfMutexDesc
  free : mutexOff rxBufidFreeMutex ∈ h.held → 95 ∈ h.masked
  printf : mutexOff printfMutexDesc ∈ h.held → h.mie = false

def Fits (h : Hart) (op : Op) : Prop := Calm h ∧ op.act.clash h.held = []

/-- Code the loop can run from and to the idle hart. -/
def Runs (c : Code) : Prop := Along Op.exec Fits idle c idle

section Loop

variable {c c' : Code}

theorem calm_of_held_nil {h : Hart} (hheld : h.held = []) : Calm h := by
  refine ⟨?_, ?_, ?_⟩ <;> simp [hheld]

theorem calm_idle : Calm idle := calm_of_held_nil rfl

theorem Runs.append (h : Runs c) (h' : Runs c') : Runs (c ++ c') := Along.append h h'

theorem runs_work : Runs [.work] := ⟨⟨calm_idle, rfl⟩, rfl⟩

theorem runs_npuPrintf (mib21 : Bool) : Runs (npuPrintf mib21) := by
  cases mib21 with
  | true => exact runs_work
  | false =>
    have hoff : Calm ⟨[], [], false⟩ := calm_of_held_nil rfl
    have hin : Calm ⟨[mutexOff printfMutexDesc], [], false⟩ :=
      ⟨by decide, by decide, fun _ => rfl⟩
    exact ⟨⟨calm_idle, rfl⟩, ⟨hoff, rfl⟩, ⟨hin, rfl⟩, ⟨hin, rfl⟩, ⟨hoff, rfl⟩, rfl⟩

theorem runs_bufIdAllocRing : Runs bufIdAllocRing := by
  have hin : Calm ⟨[mutexOff rxBufidAllocMutex], [], true⟩ :=
    ⟨by decide, by decide, by decide⟩
  exact ⟨⟨calm_idle, rfl⟩, ⟨hin, rfl⟩, ⟨hin, rfl⟩, rfl⟩

theorem runs_eagleDrainFree : Runs eagleDrainFree := by
  have hmasked : Calm ⟨[], [95], true⟩ := calm_of_held_nil rfl
  have hin : Calm ⟨[mutexOff rxBufidFreeMutex], [95], true⟩ :=
    ⟨by decide, by decide, by decide⟩
  exact ⟨⟨calm_idle, rfl⟩, ⟨hmasked, rfl⟩, ⟨hin, rfl⟩, ⟨hin, rfl⟩, ⟨hmasked, rfl⟩, rfl⟩

theorem runs_eagleTxqDrain (entry : TxqEntry) : Runs (eagleTxqDrain entry) := by
  cases entry with
  | empty => exact runs_work
  | bad => exact runs_work
  | frame => exact (runs_work.append runs_eagleDrainFree).append runs_work

theorem runs_eagleMsegDrain (segs : ℕ) : Runs (eagleMsegDrain segs) :=
  runs_work.append
    (Along.flatMap fun _ _ => (runs_work.append runs_eagleDrainFree).append runs_work)

theorem runs_eagleRxRingSweep (budget : ℕ) (slots : List RxSlot) :
    Runs (eagleRxRingSweep budget slots) := by
  have hrefill : Runs ([.work] ++ bufIdAllocRing ++ [.work]) :=
    (runs_work.append runs_bufIdAllocRing).append runs_work
  induction budget generalizing slots with
  | zero => exact runs_work
  | succ budget ih =>
    match slots with
    | [] => exact runs_work
    | .chip :: _ => exact runs_work
    | .handedBack false :: _ => exact hrefill
    | .handedBack true :: slots => exact hrefill.append (ih slots)

theorem runs_npuDbgPoll (t : Turn) : Runs (npuDbgPoll t) :=
  runs_work.append (Along.flatMap fun line _ => runs_npuPrintf line)

theorem runs_eaglePass (t : Turn) : Runs (eaglePass t) := by
  refine (Runs.append (.append ?_ (runs_eagleRxRingSweep _ _))
    (runs_eagleRxRingSweep _ _)).append runs_work
  split_ifs
  · exact ((runs_eagleTxqDrain _).append (runs_eagleTxqDrain _)).append (runs_eagleMsegDrain _)
  · exact rfl

theorem runs_eagleCore0Loop (f : Flags) (t : Turn) (stage : Stage) :
    Runs (eagleCore0Loop f t stage).2 := by
  cases stage with
  | waiting =>
    dsimp only [eagleCore0Loop]
    split_ifs
    · exact runs_work.append (runs_npuPrintf _)
    · exact runs_npuDbgPoll t
  | top => exact runs_npuDbgPoll t
  | rxTest =>
    dsimp only [eagleCore0Loop]
    split_ifs
    · exact runs_eaglePass t
    · exact (runs_npuDbgPoll t).append runs_work

end Loop

/-! ## One interrupt -/

section Interrupt

variable {h : Hart} {i : Irq}

/-- Where an interrupt is taken the console mutex is free. -/
theorem Calm.printf_free (hc : Calm h) (ht : i.Taken h) : mutexOff printfMutexDesc ∉ h.held := by
  intro hmem
  have hoff := hc.printf hmem
  rw [ht.1] at hoff
  cases hoff

/-- A mutex the loop never takes is free. -/
theorem Calm.not_held (hc : Calm h) {l : ℕ} (hl : l ≠ mutexOff rxBufidAllocMutex ∧
    l ≠ mutexOff rxBufidFreeMutex ∧ l ≠ mutexOff printfMutexDesc) : l ∉ h.held := by
  intro hmem
  rcases hc.held l hmem with rfl | rfl | rfl
  · exact hl.1 rfl
  · exact hl.2.1 rfl
  · exact hl.2.2 rfl

theorem Calm.service_free (hc : Calm h) (ht : i.Taken h) : ∀ l ∈ serviceMutexes, l ∉ h.held := by
  intro l hl
  rcases List.mem_cons.mp hl with rfl | hl
  · exact hc.not_held (by decide)
  · rw [List.mem_singleton.mp hl]
    exact hc.printf_free ht

/-- Every handler gives back what it takes. -/
theorem Irq.restored (hreg : i.Registered) (held : List ℕ) :
    heldAfter Op.act i.code held = held := by
  cases i with
  | mbox i => exact (bracketed_mboxIsr i hreg).restored held
  | timer => rfl
  | uartRx lines => exact (bracketed_uartRxIsr lines).restored held
  | ppe entries => exact (bracketed_ppeWifiBufidIsr entries).restored held

/-- A mail takes no held mutex exactly when it comes apart. -/
theorem mbox_clear_iff {i : MboxIrq} (hc : Calm h) (ht : (Irq.mbox i).Taken h)
    (hreg : (Irq.mbox i).Registered) :
    reacquired Op.act (mboxIsr i) h.held = [] ↔ (Irq.mbox i).Apart h := by
  have hservice := hc.service_free ht
  constructor
  · intro hclear hwifi
    refine ⟨?_, ?_⟩
    · rintro (hinit | hrestart) hmem
      · exact takes_mboxIsr hreg hwifi (takes_of_ringInit i.found hinit) _ hmem hclear
      · exact takes_mboxIsr hreg hwifi (takes_of_restart i.found hrestart).2 _ hmem hclear
    · intro hrestart hmem
      exact takes_mboxIsr hreg hwifi (takes_of_restart i.found hrestart).1 _ hmem hclear
  · intro hapart
    refine (bracketed_mboxIsr i hreg).clear h.held fun l hl => ?_
    rcases List.mem_cons.mp hl with rfl | hl
    · exact hc.not_held (by decide)
    by_cases hwifi : i.wifi = true
    · obtain ⟨halloc, hfree⟩ := hapart hwifi
      rw [if_pos hwifi] at hl
      unfold msgMutexes at hl
      rcases List.mem_append.mp hl with hl | hl
      · rcases List.mem_append.mp hl with hl | hl
        · exact hservice l hl
        · split_ifs at hl with hmsg
          · rw [List.mem_singleton.mp hl]
            exact halloc (by rwa [Bool.or_eq_true] at hmsg)
          · cases hl
      · split_ifs at hl with hrestart
        · rw [List.mem_singleton.mp hl]
          exact hfree hrestart
        · cases hl
    · rw [if_neg hwifi] at hl
      exact hservice l hl

/-- So does every interrupt, the others being apart always. -/
theorem Irq.clear_iff (hc : Calm h) (ht : i.Taken h) (hreg : i.Registered) :
    reacquired Op.act i.code h.held = [] ↔ i.Apart h := by
  cases i with
  | mbox i => exact mbox_clear_iff hc ht hreg
  | timer => exact iff_of_true rfl trivial
  | uartRx lines =>
    refine iff_of_true ((bracketed_uartRxIsr lines).clear h.held fun l hl => ?_) trivial
    rw [List.mem_singleton.mp hl]
    exact hc.printf_free ht
  | ppe entries =>
    refine iff_of_true ((bracketed_ppeWifiBufidIsr entries).clear h.held fun l hl => ?_) trivial
    rcases List.mem_cons.mp hl with rfl | hl
    · -- the drain masks the source while it frees
      exact fun hmem => ht.2.2 (hc.free hmem)
    · rw [List.mem_singleton.mp hl]
      exact hc.not_held (by decide)

end Interrupt

/-! ## Every run -/

/-- What is left of the loop's code runs on to the idle hart. -/
structure HartInv (s : State) : Prop where
  runs : Along Op.exec Fits idle s.rest s.hart
  clear : s.reacquired = []

theorem HartInv.calm {s : State} (h : HartInv s) : Calm s.hart := by
  obtain ⟨stage, flags, rest, hart, clashes⟩ := s
  cases rest with
  | nil =>
    obtain rfl : hart = idle := h.runs
    exact calm_idle
  | cons op rest => exact h.runs.1.1

theorem step_next {s : State} (t : Turn) (h : s.rest = []) :
    step s (.next t) = some { s with
      stage := (eagleCore0Loop s.flags t s.stage).1
      rest := (eagleCore0Loop s.flags t s.stage).2 } := if_pos h

theorem step_irq {s : State} {i : Irq} (h : i.Taken s.hart) :
    step s (.irq i) = some { s with
      flags := i.flags s.flags
      hart := { s.hart with held := heldAfter Op.act i.code s.hart.held }
      reacquired := s.reacquired ++ reacquired Op.act i.code s.hart.held } := if_pos h

theorem hartInv_step {s s' : State} {a : Action} (h : HartInv s) (hm : MailsApart s a)
    (hs : step s a = some s') : HartInv s' := by
  cases a with
  | next t =>
    by_cases hrest : s.rest = []
    · have hidle : s.hart = idle := by
        have hruns := h.runs
        rw [hrest] at hruns
        exact hruns
      obtain rfl := Option.some.inj ((step_next t hrest).symm.trans hs)
      refine ⟨?_, h.clear⟩
      dsimp only
      rw [hidle]
      exact runs_eagleCore0Loop s.flags t s.stage
    · exact absurd ((if_neg hrest).symm.trans hs) nofun
  | run =>
    obtain ⟨stage, flags, rest, hart, clashes⟩ := s
    cases rest with
    | nil => cases hs
    | cons op rest =>
      obtain rfl := Option.some.inj hs
      obtain ⟨⟨-, hclash⟩, hrest⟩ := h.runs
      refine ⟨hrest, ?_⟩
      have hclear : clashes = [] := h.clear
      dsimp only at hclash ⊢
      rw [hclear, hclash]
      rfl
  | irq i =>
    by_cases ht : i.Taken s.hart
    · obtain rfl := Option.some.inj ((step_irq ht).symm.trans hs)
      refine ⟨?_, ?_⟩
      · dsimp only
        rw [Irq.restored hm.1]
        exact h.runs
      · dsimp only
        rw [h.clear, (Irq.clear_iff h.calm ht hm.1).mpr hm.2]
        rfl
    · exact absurd ((if_neg ht).symm.trans hs) nofun

/-- While no ring start or restart arrives inside the section of a mutex
    it takes, no mutex is taken twice; the first that does takes one. -/
theorem hart0_mutex_guarded (s : State) (h : (hart0System.guarded MailsApart).Reachable s) :
    s.reacquired = [] ∧ ∀ i : Irq, i.Taken s.hart → i.Registered →
      (reacquired Op.act i.code s.hart.held = [] ↔ i.Apart s.hart) := by
  have hinv : HartInv s := by
    have hinit : ∀ s, (hart0System.guarded MailsApart).init s → HartInv s := by
      rintro s ⟨-, hrest, hhart, hclear⟩
      refine ⟨?_, hclear⟩
      rw [hrest]
      exact hhart
    refine h.invariant hinit ?_
    rintro s a s' hs ⟨hm, hstep⟩
    exact hartInv_step hs hm hstep
  exact ⟨hinv.clear, fun i ht hreg => Irq.clear_iff hinv.calm ht hreg⟩

/-! ## The ring start -/

/-- The loop about to start, everything the host sets up being there. -/
def readyToStart : State where
  stage := .waiting
  flags := ⟨true, true, true, true, true⟩
  rest := []
  hart := idle
  reacquired := []

/-- A quiet turn of the loop, the console off. -/
def quietTurn : Turn where
  dbgLines := []
  mib21 := true
  hostadptTxRingReady := true
  txq0 := .empty
  txq1 := .empty
  mseg1 := 0
  slots0 := []
  slots1 := []

/-- The host starts rx ring 0 with one buffer and waits for the answer. -/
def ringStart : MboxIrq where
  src := 8
  cleared := true
  mail := ⟨0x90000000, 64, 1⟩
  msg := ⟨0x10, 1, 1⟩
  handler := .wifiMailDispatch
  found := ⟨fun _ => true, fun _ => .fresh, 1, 0, false⟩

/-- Into the pass `t`, up to its n-th operation. -/
def intoPass (t : Turn) (n : ℕ) : List Action :=
  [.next quietTurn, .run, .run, .next quietTurn, .run, .next t] ++ List.replicate n .run

/-- Anything but an interrupt. -/
def Action.own : Action → Bool
  | irq _ => false
  | _ => true

/-- The mail arrives while the drain frees a buffer. -/
theorem hart0_mutex_guarded_drain :
    ∃ s : State, s.hart.held = [mutexOff rxBufidFreeMutex] ∧ s.reacquired = [] := by
  have hown : ∀ s a s', Action.own a = true → step s a = some s' →
      (hart0System.guarded MailsApart).step s a s' := by
    intro s a s' ha hs
    cases a with
    | next t => exact ⟨trivial, hs⟩
    | run => exact ⟨trivial, hs⟩
    | irq i => cases ha
  let inFree : State :=
    { stage := .top
      flags := readyToStart.flags
      rest := [.work, .hwMutexUnlock rxBufidFreeMutex, .plicEnable 95] ++ List.replicate 6 .work
      hart := ⟨[mutexOff rxBufidFreeMutex], [95], true⟩
      reacquired := [] }
  have hrun : StepSystem.run step (fun _ a => a.own) readyToStart
      (intoPass { quietTurn with txq0 := .frame } 3) = some inFree := rfl
  have h0 : (hart0System.guarded MailsApart).Reachable readyToStart := .init ⟨rfl, rfl, rfl, rfl⟩
  have h1 : (hart0System.guarded MailsApart).Reachable inFree := h0.of_run hown hrun
  have hmail : MailsApart inFree (.irq (.mbox ringStart)) :=
    ⟨fun _ => rfl, fun _ => ⟨fun _ => by decide, fun hrestart => absurd hrestart (by decide)⟩⟩
  have htaken : (Irq.mbox ringStart).Taken inFree.hart := by decide
  have hstep : ∃ s', step inFree (.irq (.mbox ringStart)) = some s' ∧
      s'.hart.held = [mutexOff rxBufidFreeMutex] :=
    ⟨_, step_irq htaken, by decide +kernel⟩
  obtain ⟨s', hs', hheld⟩ := hstep
  exact ⟨s', hheld, (hart0_mutex_guarded _ (h1.step (.irq (.mbox ringStart)) ⟨hmail, hs'⟩)).1⟩

/-- It arrives while the sweep takes an id. -/
theorem hart0_mutex_twice : ¬ ∀ s, hart0System.Reachable s → s.reacquired = [] := by
  intro hall
  have h0 : hart0System.Reachable readyToStart := .init ⟨rfl, rfl, rfl, rfl⟩
  have hrun : (StepSystem.run step (fun _ _ => true) readyToStart
      (intoPass { quietTurn with slots0 := [.handedBack true] } 5 ++ [.irq (.mbox ringStart)])).map
        State.reacquired = some [mutexOff rxBufidAllocMutex] := by
    decide +kernel
  obtain ⟨s, hs, htwice⟩ := Option.map_eq_some_iff.mp hrun
  have hreach := h0.of_run (fun _ _ _ _ hstep => hstep) hs
  rw [hall s hreach] at htwice
  cases htwice

end ClankerNPU.Hart0
