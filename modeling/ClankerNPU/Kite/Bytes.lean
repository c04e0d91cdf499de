import ClankerNPU.Kite.Classify
import ClankerNPU.Kite.Filled
import ClankerNPU.Kite.Whole

/-! # What goes to the wire

    A frame's 802.3 part starts behind a header whose length comes from
    bits of the buffer, the descriptor gives the frame's length, and
    neither is checked against the other. A frame with room for its
    header is sent as it is, at once or out of the reorder engine; of a
    shorter one the length wraps and about 64 KB are sent. -/

namespace ClankerNPU.Kite

variable {W : Type*}

/-! ## Runs -/

/-- A received frame: what the buffer holds, its id, and the length in
    the descriptor. -/
structure Received where
  b : RxBuf
  bufId : ℕ
  len : ℕ

/-- The engine and what is outside of it, with the frames received so far. -/
structure RxRun (W : Type*) where
  rx : Rx W
  received : List Received

/-- What happens to an engine: a frame comes in by either path, held
    frames time out, or a mail or a flush comes for an entry. -/
inductive RxAction where
  | frame (fast : Bool) (f : Received) (band : ℕ)
  | timeout (k : BaKey) (now limit : ℕ)
  | bar (k : BaKey) (ssn : ℕ)
  | setBa (k : BaKey) (band winSize ssn : ℕ)
  | reset (k : BaKey) (dir : ℕ)
  | flush (k : BaKey)

/-- An operation on the entries, and its releases. -/
def Rx.releases (r : Rx W) (sw : RxSwitches) (ports : RxPorts W) (f : BaState → BaState) : Rx W :=
  settle sw ports (f { r.ba with outs := [] }) r.out

/-- Runs from the boot on, with nothing held. The host may change every
    switch at any time, the address of the packet buffer stays. A length
    has 14 bits. -/
def rxSystem (ports : RxPorts W) (base : ℕ) : StepSystem (RxRun W) (RxSwitches × RxAction) where
  init := fun s => (∀ k, (s.rx.ba.entry k).head = none ∧ (s.rx.ba.entry k).chain = none) ∧
    s.rx.ba.outs = [] ∧ s.rx.out.calls = [] ∧ s.received = []
  step := fun s a s' =>
    a.1.wifiPktBufAddr = base ∧
    match a.2 with
    | .frame fast f band =>
      f.len < 2 ^ 14 ∧ s' = ⟨((if fast then kiteClassifyFast else kiteClassify) a.1 ports s.rx f.b
        f.bufId f.len band).1, s.received ++ [f]⟩
    | .timeout k now limit =>
      s' = { s with rx := s.rx.releases a.1 ports fun ba => baTimeoutEntry ba k now limit }
    | .bar k ssn => s' = { s with rx := s.rx.releases a.1 ports fun ba => npuSetBarInfo ba k ssn }
    | .setBa k band winSize ssn =>
      s' = { s with rx := s.rx.releases a.1 ports fun ba => npuSetBaEntry ba k band winSize ssn }
    | .reset k dir =>
      s' = { s with rx := s.rx.releases a.1 ports fun ba => wifiResetBaEntry ba k dir }
    | .flush k => s' = { s with rx := s.rx.releases a.1 ports fun ba => baFlushEntry ba k }

/-! ## Sent frames were received -/

/-- The address of a buffer in the packet buffer at `base`. -/
def pktVa (base bufId : ℕ) : ℕ := u32 (((base &&& 0x3FFFFFFF) ||| 0x40000000) + bufId <<< 12 : ℕ)

/-- The reorder engine's record of one of the received frames. -/
def RecordOf (received : List Received) (f : KiteFrame) : Prop :=
  ∃ r ∈ received, f.bufId = u16 r.bufId ∧ f.len = u16 r.len ∧ f.hdr = r.b.hdrLen

/-- A submit is of one of the received frames, from behind its header on. -/
def CallOf (base : ℕ) (received : List Received) : RxCall → Prop
  | .submit bufId len addr _ => ∃ r ∈ received, bufId = u16 r.bufId ∧
      len = u16 ((r.len : ℤ) - r.b.hdrLen - 2) ∧
      addr = u32 ((pktVa base (u16 r.bufId) : ℤ) + 2 + r.b.hdrLen)
  | _ => True

/-- All that is held or called out was received. -/
structure RxInv (base : ℕ) (s : RxRun W) : Prop where
  closed : ∃ F, Closed (RecordOf s.received) F s.rx.ba
  calls : ∀ c ∈ s.rx.out.calls, CallOf base s.received c
  lens : ∀ r ∈ s.received, r.len < 2 ^ 14

section calls

variable {sw : RxSwitches} {ports : RxPorts W} {base : ℕ} {received : List Received}
  {o : Outside W}

theorem CallOf.mono {received' : List Received} {c : RxCall} (h : CallOf base received c)
    (hsub : ∀ r ∈ received, r ∈ received') : CallOf base received' c := by
  cases c with
  | submit bufId len addr band =>
    obtain ⟨r, hr, heq⟩ := h
    exact ⟨r, hsub r hr, heq⟩
  | forward bufId len band result => trivial
  | free band bufId => trivial

theorem calls_submit {bufId len addr band : ℕ} (ho : ∀ c ∈ o.calls, CallOf base received c)
    (hc : CallOf base received (.submit bufId len addr band)) :
    ∀ c ∈ (o.submit ports bufId len addr band).calls, CallOf base received c := by
  have hboth : ∀ c ∈ o.calls ++ [.submit bufId len addr band], CallOf base received c := by
    intro c hmem
    rcases List.mem_append.mp hmem with hmem | hmem
    · exact ho c hmem
    · rw [List.mem_singleton.mp hmem]
      exact hc
  intro c hmem
  unfold Outside.submit at hmem
  simp only at hmem
  split at hmem
  · rcases List.mem_append.mp hmem with hmem | hmem
    · exact hboth c hmem
    · rw [List.mem_singleton.mp hmem]
      trivial
  · exact hboth c hmem

theorem calls_forward {bufId len band : ℕ} {result : ℤ}
    (ho : ∀ c ∈ o.calls, CallOf base received c) :
    ∀ c ∈ (o.forward ports bufId len band result).calls, CallOf base received c := by
  intro c hmem
  unfold Outside.forward at hmem
  simp only at hmem
  split at hmem
  · simp only [List.append_assoc, List.mem_append, List.mem_singleton] at hmem
    rcases hmem with hmem | rfl | rfl
    · exact ho c hmem
    · trivial
    · trivial
  · simp only [List.mem_append, List.mem_singleton] at hmem
    rcases hmem with hmem | rfl
    · exact ho c hmem
    · trivial

/-- `pkt_enqueue_bridge` of a received frame. -/
theorem calls_enqueueBridge {r : Received} {band bss : ℕ} (hr : r ∈ received)
    (hsw : sw.wifiPktBufAddr = base) (ho : ∀ c ∈ o.calls, CallOf base received c) :
    ∀ c ∈ (pktEnqueueBridge sw ports (u16 r.bufId) (u16 r.len) r.b.hdrLen band bss o).calls,
      CallOf base received c := by
  unfold pktEnqueueBridge
  split
  · exact calls_forward ho
  · split
    · exact calls_forward ho
    · refine calls_submit ho ⟨r, hr, rfl, ?_, ?_⟩
      · unfold u16
        omega
      · unfold RxSwitches.wifiPktVa pktVa
        rw [hsw]

/-- The engine's releases are of received frames. -/
theorem calls_settle {outs : List Out} (hsw : sw.wifiPktBufAddr = base)
    (houts : ∀ e ∈ outs, OutOf (RecordOf received) e)
    (ho : ∀ c ∈ o.calls, CallOf base received c) :
    ∀ c ∈ (outs.foldl (deliver sw ports) o).calls, CallOf base received c := by
  induction outs generalizing o with
  | nil => exact ho
  | cons e outs ih =>
    refine ih (fun e' he' => houts e' (List.mem_cons_of_mem _ he')) ?_
    have he := houts e List.mem_cons_self
    cases e with
    | bridge origin bufId len hdr band bss =>
      obtain ⟨f, ⟨r, hr, hbuf, hlen, hhdr⟩, rfl, rfl, rfl⟩ := he
      unfold deliver
      rw [hbuf, hlen, hhdr]
      exact calls_enqueueBridge hr hsw ho
    | free band bufId =>
      intro c hmem
      rcases List.mem_append.mp hmem with hmem | hmem
      · exact ho c hmem
      · rw [List.mem_singleton.mp hmem]
        trivial

end calls

/-! ## Every step -/

section step

variable {sw : RxSwitches} {ports : RxPorts W} {base : ℕ} {s s' : RxRun W}

theorem closed_quiet {P : KiteFrame → Prop} {F : NodeRef → Prop} {ba : BaState}
    (h : Closed P F ba) : Closed P F { ba with outs := [] } :=
  ⟨h.node, h.head, h.chain, nofun⟩

/-- An operation that stays inside the filled nodes. -/
theorem RxInv.releases (h : RxInv base s) (hsw : sw.wifiPktBufAddr = base)
    {f : BaState → BaState}
    (hf : ∀ P F ba, Closed P F ba → Closed P F (f ba)) :
    RxInv base { s with rx := s.rx.releases sw ports f } := by
  obtain ⟨⟨F, hclosed⟩, hcalls, hlens⟩ := h
  have hstep := hf _ _ _ (closed_quiet hclosed)
  exact ⟨⟨F, closed_quiet hstep⟩, calls_settle hsw hstep.outs hcalls, hlens⟩

theorem kiteRxParse_record {b : RxBuf} {bufId len : ℕ} {pn : KiteFrame}
    (h : kiteRxParse b bufId len = some pn) :
    pn.bufId = u16 bufId ∧ pn.len = u16 len ∧ pn.hdr = b.hdrLen := by
  unfold kiteRxParse at h
  simp only at h
  split_ifs at h
  all_goals
    obtain rfl := Option.some.inj h
    exact ⟨rfl, rfl, rfl⟩

theorem kiteRxHdrLen_eq {b : RxBuf} {hdr : ℕ} (h : kiteRxHdrLen b = some hdr) : hdr = b.hdrLen := by
  unfold kiteRxHdrLen at h
  split_ifs at h
  exact (Option.some.inj h).symm

/-- A frame by the slow path. -/
theorem RxInv.classify (h : RxInv base s) (hsw : sw.wifiPktBufAddr = base) {f : Received}
    (hlen : f.len < 2 ^ 14) (band : ℕ) :
    RxInv base ⟨(kiteClassify sw ports s.rx f.b f.bufId f.len band).1, s.received ++ [f]⟩ := by
  obtain ⟨⟨F, hclosed⟩, hcalls, hlens⟩ := h
  have hsub : ∀ r ∈ s.received, r ∈ s.received ++ [f] := fun r hr => List.mem_append_left _ hr
  have hmem : f ∈ s.received ++ [f] := List.mem_append_right _ List.mem_cons_self
  have hclosed' : Closed (RecordOf (s.received ++ [f])) F s.rx.ba :=
    hclosed.mono fun g ⟨r, hr, heq⟩ => ⟨r, hsub r hr, heq⟩
  have hcalls' : ∀ c ∈ s.rx.out.calls, CallOf base (s.received ++ [f]) c := fun c hc =>
    (hcalls c hc).mono hsub
  have hlens' : ∀ r ∈ s.received ++ [f], r.len < 2 ^ 14 := by
    intro r hr
    rcases List.mem_append.mp hr with hr | hr
    · exact hlens r hr
    · rw [List.mem_singleton.mp hr]
      exact hlen
  unfold kiteClassify
  split
  · split
    · exact ⟨⟨F, hclosed'⟩, hcalls', hlens'⟩
    · next hdr hhdr =>
      rw [kiteRxHdrLen_eq hhdr]
      exact ⟨⟨F, hclosed'⟩, calls_enqueueBridge hmem hsw hcalls', hlens'⟩
  · split
    · exact ⟨⟨F, hclosed'⟩, hcalls', hlens'⟩
    · next pn hparse =>
      have hrecord : RecordOf (s.received ++ [f]) pn :=
        ⟨f, hmem, kiteRxParse_record hparse⟩
      obtain ⟨F', hstep⟩ := (closed_quiet hclosed').classifyPn hrecord sw.toRxFlags band
      exact ⟨⟨F', closed_quiet hstep⟩, calls_settle hsw hstep.outs hcalls', hlens'⟩

theorem RxInv.step {a : RxSwitches × RxAction} (h : RxInv base s)
    (hstep : (rxSystem ports base).step s a s') : RxInv base s' := by
  obtain ⟨sw, a⟩ := a
  obtain ⟨hsw, hstep⟩ := hstep
  cases a with
  | frame fast f band =>
    obtain ⟨hlen, rfl⟩ := hstep
    cases fast with
    | false => exact h.classify hsw hlen band
    | true =>
      simp only [if_true]
      rw [classify_fast_eq]
      exact h.classify hsw hlen band
  | timeout k now limit =>
    obtain rfl := hstep
    exact h.releases hsw fun P F ba hba => hba.timeoutLoop now limit nodeFuel
  | bar k ssn =>
    obtain rfl := hstep
    exact h.releases hsw fun P F ba hba => hba.barInfo ssn
  | setBa k band winSize ssn =>
    obtain rfl := hstep
    exact h.releases hsw fun P F ba hba => hba.setBaEntry band winSize ssn
  | reset k dir =>
    obtain rfl := hstep
    exact h.releases hsw fun P F ba hba => hba.resetBaEntry dir
  | flush k =>
    obtain rfl := hstep
    exact h.releases hsw fun P F ba hba => hba.flushEntry

theorem rxInv_of_reachable (hreach : (rxSystem ports base).Reachable s) : RxInv base s := by
  refine hreach.invariant ?_ fun _ _ _ => RxInv.step
  rintro s ⟨hempty, houts, hcalls, hreceived⟩
  refine ⟨⟨fun _ => False, nofun, ?_, ?_, ?_⟩, ?_, ?_⟩
  · intro k r hr
    rw [(hempty k).1] at hr
    cases hr
  · intro k r hr
    rw [(hempty k).2] at hr
    cases hr
  · rw [houts]
    nofun
  · rw [hcalls]
    nofun
  · rw [hreceived]
    nofun

end step

/-! ## Inside the frame -/

theorem hdrLen_le (b : RxBuf) : b.hdrLen ≤ 144 := by
  unfold RxBuf.hdrLen
  split_ifs <;> omega

/-- The bytes sent are the frame's, from behind the header to its end. -/
structure Received.Covers (r : Received) (len : ℕ) : Prop where
  inside : r.b.hdrLen + 2 + len ≤ r.len
  exact : (len : ℤ) = r.len - r.b.hdrLen - 2

theorem Received.covers_iff {r : Received} (h : r.len < 2 ^ 14) :
    r.Covers (u16 ((r.len : ℤ) - r.b.hdrLen - 2)) ↔ r.b.hdrLen + 2 ≤ r.len := by
  have hle := hdrLen_le r.b
  unfold u16
  constructor
  · rintro ⟨hin, -⟩
    omega
  · intro hroom
    constructor <;> omega

/-- In every run, whatever goes to TDMA is a received frame from behind its
    header on, and lies in it just when the header and two more bytes do. -/
theorem submits_inside_iff {ports : RxPorts W} {base : ℕ} {s : RxRun W}
    (hreach : (rxSystem ports base).Reachable s) {bufId len addr band : ℕ}
    (hcall : .submit bufId len addr band ∈ s.rx.out.calls) :
    ∃ r ∈ s.received, bufId = u16 r.bufId ∧
      addr = u32 ((pktVa base (u16 r.bufId) : ℤ) + 2 + r.b.hdrLen) ∧
      (r.Covers len ↔ r.b.hdrLen + 2 ≤ r.len) := by
  have hinv := rxInv_of_reachable hreach
  obtain ⟨r, hr, hbuf, rfl, haddr⟩ := hinv.calls _ hcall
  exact ⟨r, hr, hbuf, haddr, r.covers_iff (hinv.lens r hr)⟩

deriving instance DecidableEq for RxCall

/-- A TDMA and a host that take everything. -/
def allTaken : RxPorts Unit := ⟨fun _ _ _ _ _ => (0, ()), fun _ _ _ _ _ => (0, ())⟩

/-- Everything may go to the wire. -/
def wireOpen : RxSwitches := ⟨noFlags, false, fun _ => 0, 1, 0, 0, 0, 0⟩

/-- A QoS frame of station 1 with number 101 and no optional header part. -/
def qosFrame (len : ℕ) : Received := ⟨⟨0x4001, 0, 0, 0x88, 1616⟩, 7, len⟩

/-- The run of one such frame. -/
def oneFrame (len : ℕ) : RxRun Unit where
  rx := (kiteClassify wireOpen allTaken ⟨window100, (), []⟩ (qosFrame len).b 7 len 0).1
  received := [qosFrame len]

theorem oneFrame_reachable {len : ℕ} (h : len < 2 ^ 14) :
    (rxSystem allTaken 0).Reachable (oneFrame len) := by
  have hinit : (rxSystem allTaken 0).init ⟨⟨window100, (), []⟩, []⟩ :=
    ⟨fun _ => ⟨rfl, rfl⟩, rfl, rfl, rfl⟩
  exact .step (wireOpen, .frame false (qosFrame len) 0) (.init hinit) ⟨rfl, h, rfl⟩

/-- 58 of 100 bytes go out, from the 42nd on. -/
theorem submits_inside_iff_frame :
    .submit 7 58 0x4000702A 0 ∈ (oneFrame 100).rx.out.calls ∧ (qosFrame 100).Covers 58 := by
  have hcall : .submit 7 58 0x4000702A 0 ∈ (oneFrame 100).rx.out.calls := by decide +kernel
  obtain ⟨r, hr, -, -, hcovers⟩ := submits_inside_iff (oneFrame_reachable (by decide)) hcall
  obtain rfl := List.mem_singleton.mp hr
  exact ⟨hcall, hcovers.mpr (by decide)⟩

/-- Of a frame of 20 bytes 65514 are sent. -/
theorem submits_beyond :
    ∃ s, (rxSystem allTaken 0).Reachable s ∧ s.received = [qosFrame 20] ∧
      .submit 7 65514 0x4000702A 0 ∈ s.rx.out.calls ∧ ¬(qosFrame 20).Covers 65514 := by
  refine ⟨oneFrame 20, oneFrame_reachable (by decide), rfl, by decide +kernel, ?_⟩
  rintro ⟨hin, -⟩
  have hlen : (qosFrame 20).len = 20 := rfl
  omega

end ClankerNPU.Kite
