import ClankerNPU.EagleRx.Restart

/-! # What survives a restart

    Resetting the pool makes every id free while the harts keep what they
    have. When they rest at that moment with nothing in their hands and no
    chain being collected, no id and no segment from before the reset is
    seen again. When core 1 is between two segments of a frame, the chain
    keeps the ids of the first ones, which the pool hands out anew; the
    last section follows such a run. -/

open scoped BigOperators

namespace ClankerNPU.EagleRx

open Circular Custody

variable {b : Build}

/-! ## The invariant -/

/-- While the harts may run: nothing is in two places, and all of it was
    allocated since the pool was reset. -/
structure EpochInv (b : Build) (s : HostState) : Prop where
  ledger : ∃ lost, Ledger b (s.rx.lose lost)
  drawn : ∑ ring, s.desc ring + s.rx.handed + s.wire ≤ s.allocated + s.rx.tdma
  pool : s.pool + s.allocated = Multiset.range b.bufidPoolEntries + s.rx.returned
  heard : segsHeld s.rx + s.sent ≤ s.heard
  heardIds : ∀ g ∈ s.heard, g.bufId ∈ s.allocated

/-- The ids under the rings initialised so far. -/
def readyDesc (s : HostState) (ready : RxRing → Bool) : Multiset ℕ :=
  ∑ ring, if ready ring = true then s.desc ring else 0

/-- Core 1 collects no chain. -/
def RxChain.Rests (c : RxChain) : Prop := c.chaining = true → c.abort = true

/-- Between the reset of the pool and the end of the restart the harts
    rest with nothing in their hands. -/
structure RestartInv (b : Build) (s : HostState) (ready : RxRing → Bool) : Prop where
  outside : ∀ h, s.inside h = false
  core1 : s.rx.core1 = .idle
  core3 : s.rx.core3 = .idle
  ppe : s.rx.ppe = .idle
  chain : s.rx.chain.Rests
  shape : Shape s.rx
  records : s.rx.forget = s.rx
  queues0 : ready .rx0 = true → s.rx.pkts .band0 = [] ∧ s.rx.msegs .band0 = []
  queues1 : ready .rx1 = true → s.rx.pkts .band1 = [] ∧ s.rx.msegs .band1 = []
  wire : s.wire = 0
  drawn : readyDesc s ready ≤ s.allocated
  pool : s.pool + s.allocated = Multiset.range b.bufidPoolEntries
  sent : s.sent = 0
  heard : s.heard = 0

/-- What a run keeps. -/
structure HostInv (b : Build) (s : HostState) : Prop where
  epoch : (∀ ready, s.phase ≠ .restart ready) → EpochInv b s
  restart : ∀ ready, s.phase = .restart ready → RestartInv b s ready

/-- The pool is reset when TDMA and the PPE are done, the harts are at
    rest and no chain is being collected. -/
def ResetsAtRest (s : HostState) : HostAction → Prop
  | .reset => (∀ h, s.inside h = false) ∧ s.rx.core1 = .idle ∧ s.rx.core3 = .idle ∧
      s.rx.ppe = .idle ∧ s.rx.chain.Rests ∧ s.wire = 0
  | _ => True

/-! ## While the harts run -/

section epoch

variable {s s' : HostState}

/-- Where the ids allocated since the reset are. -/
theorem EpochInv.places (h : EpochInv b s) :
    s.rx.returned + ∑ ring, s.desc ring + s.wire + liveTotal b s.rx ≤ s.allocated := by
  obtain ⟨lost, hledger⟩ := h.ledger
  have hbal : s.rx.handed = s.rx.returned + lost + s.rx.tdma + liveTotal b s.rx :=
    hledger.balance
  have hdrawn := h.drawn
  rw [hbal] at hdrawn
  have hall : s.rx.returned + ∑ ring, s.desc ring + s.wire + liveTotal b s.rx + lost + s.rx.tdma
      ≤ s.allocated + s.rx.tdma := by
    refine le_trans (le_of_eq ?_) hdrawn
    abel
  have hlost := (add_le_add_iff_right s.rx.tdma).mp hall
  exact le_trans le_self_add hlost

theorem EpochInv.shape (h : EpochInv b s) : Shape s.rx := by
  obtain ⟨lost, hledger⟩ := h.ledger
  exact hledger.shape.congr rfl rfl hledger.shape.chain rfl

/-- The id an action takes from under a descriptor lies there. -/
theorem HostState.mayRun.fromRing_le {ring : RxRing} {a : RxAction} (h : s.mayRun ring a) :
    a.fromRing ≤ s.desc ring := by
  cases a
  case rxd dw1 dw2 icv force => exact Multiset.singleton_le.mpr h.2.2
  case eventStart old dw1 => exact Multiset.singleton_le.mpr h.2.2
  all_goals exact Multiset.zero_le _

theorem HostState.mayRun.fromPpe_le {ring : RxRing} {a : RxAction} (h : s.mayRun ring a) :
    a.fromPpe ≤ s.wire := by
  cases a
  case ppeEntry v info hdr => exact Multiset.singleton_le.mpr h
  all_goals exact Multiset.zero_le _

/-- The segments read were under descriptors. -/
theorem heard_fromRing {a : RxAction} {g : Seg} (hg : g ∈ a.heard) : g.bufId ∈ a.fromRing := by
  cases a
  case rxd dw1 dw2 icv force =>
    rw [Multiset.mem_singleton.mp hg]
    exact Multiset.mem_singleton_self _
  all_goals exact absurd hg (Multiset.notMem_zero g)

/-- A step of the receive path moves ids and segments; none appears. -/
theorem EpochInv.rx {ring : RxRing} {a : RxAction} {rx : RxState} (h : EpochInv b s)
    (hrun : s.mayRun ring a) (hstep : rxStep b s.rx a = some rx) :
    EpochInv b (s.afterRx ring a rx) := by
  obtain ⟨hhanded, hret, htdma⟩ := rxStep_records hstep
  have hring := hrun.fromRing_le
  refine ⟨ledger_step h.ledger hstep, ?_, ?_, ?_, ?_⟩
  · -- what the action takes leaves its ring, or the wire
    have hdesc : ∑ r, Function.update s.desc ring (s.desc ring - a.fromRing) r + a.fromRing
        = ∑ r, s.desc r := by
      have hsum := sum_update (fun d : Multiset ℕ => d) s.desc ring (s.desc ring - a.fromRing)
      refine @add_right_cancel _ _ _ _ (s.desc ring - a.fromRing) _ ?_
      rw [← hsum, add_assoc, add_comm a.fromRing, tsub_add_cancel_of_le hring]
    have hwire : s.wire - a.fromPpe + a.fromPpe = s.wire := tsub_add_cancel_of_le hrun.fromPpe_le
    have hgone : s.rx.tdma + (rx.tdma - s.rx.tdma) = rx.tdma := add_tsub_cancel_of_le htdma
    have hdrawn := h.drawn
    show ∑ r, Function.update s.desc ring (s.desc ring - a.fromRing) r + rx.handed
      + (s.wire - a.fromPpe + (rx.tdma - s.rx.tdma)) ≤ s.allocated + rx.tdma
    generalize ∑ r, Function.update s.desc ring (s.desc ring - a.fromRing) r = desc at hdesc ⊢
    generalize s.wire - a.fromPpe = wire at hwire ⊢
    generalize rx.tdma - s.rx.tdma = gone at hgone ⊢
    rw [← hdesc, ← hwire] at hdrawn
    calc desc + rx.handed + (wire + gone)
        = desc + a.fromRing + s.rx.handed + (wire + a.fromPpe) + gone := by
          rw [hhanded]
          abel
      _ ≤ s.allocated + s.rx.tdma + gone := add_le_add hdrawn le_rfl
      _ = s.allocated + rx.tdma := by rw [add_assoc, hgone]
  · show s.pool + (rx.returned - s.rx.returned) + s.allocated
      = Multiset.range b.bufidPoolEntries + rx.returned
    rw [add_right_comm, h.pool, add_assoc, add_tsub_cancel_of_le hret]
  · show segsHeld rx + (a.sends s.rx + s.sent) ≤ a.heard + s.heard
    calc segsHeld rx + (a.sends s.rx + s.sent)
        = segsHeld rx + a.sends s.rx + s.sent := by rw [add_assoc]
      _ ≤ a.heard + segsHeld s.rx + s.sent :=
          add_le_add (segsHeld_step h.shape hstep) le_rfl
      _ ≤ a.heard + s.heard := by
          rw [add_assoc]
          exact add_le_add le_rfl h.heard
  · intro g hg
    rcases Multiset.mem_add.mp hg with hnew | hold
    · -- what lies under a descriptor was allocated since the reset
      have hid := Multiset.mem_of_le hring (heard_fromRing hnew)
      apply Multiset.mem_of_le h.places
      have hmem : g.bufId ∈ ∑ r, s.desc r :=
        Multiset.mem_of_le (Finset.single_le_sum (fun r _ => Multiset.zero_le (s.desc r))
          (Finset.mem_univ ring)) hid
      simp only [Multiset.mem_add]
      exact .inl (.inl (.inr hmem))
    · exact h.heardIds g hold

theorem EpochInv.refill {ring : RxRing} {id : ℕ} (h : EpochInv b s) (hid : id ∈ s.pool) :
    EpochInv b (s.refill ring id) := by
  refine ⟨h.ledger, ?_, ?_, h.heard, ?_⟩
  · have hdesc : ∑ r, Function.update s.desc ring (id ::ₘ s.desc ring) r
        = id ::ₘ ∑ r, s.desc r := by
      have hsum := sum_update (fun d : Multiset ℕ => d) s.desc ring (id ::ₘ s.desc ring)
      rw [Multiset.add_cons, ← Multiset.cons_add] at hsum
      exact add_right_cancel hsum
    show ∑ r, Function.update s.desc ring (id ::ₘ s.desc ring) r + s.rx.handed + s.wire
      ≤ id ::ₘ s.allocated + s.rx.tdma
    rw [hdesc, Multiset.cons_add, Multiset.cons_add, Multiset.cons_add]
    exact Multiset.cons_le_cons id h.drawn
  · show s.pool - {id} + (id ::ₘ s.allocated) = Multiset.range b.bufidPoolEntries + s.rx.returned
    rw [← h.pool, ← Multiset.singleton_add, ← add_assoc,
      tsub_add_cancel_of_le (Multiset.singleton_le.mpr hid)]
  · intro g hg
    exact Multiset.mem_cons_of_mem (h.heardIds g hg)

end epoch

/-! ## Between the reset and the restart -/

section restart

variable {s s' : HostState} {ready : RxRing → Bool}

/-- The receive path does not move. -/
theorem RestartInv.quiet {ring : RxRing} {a : RxAction} (h : RestartInv b s ready)
    (hrun : s.mayRun ring a) : rxStep b s.rx a = none := by
  have hcore1 := h.core1
  have hcore3 := h.core3
  have hppe := h.ppe
  cases a
  case rxd dw1 dw2 icv force =>
    have hin := hrun.1
    rw [h.outside] at hin
    cases hin
  case eventStart old dw1 =>
    have hin := hrun.1
    rw [h.outside] at hin
    cases hin
  case txqStart band =>
    have hin : s.inside .core3 = true := hrun
    rw [h.outside] at hin
    cases hin
  case msegStart =>
    have hin : s.inside .core3 = true := hrun
    rw [h.outside] at hin
    cases hin
  case ppeStart => exact absurd h.wire hrun
  all_goals
    simp only [rxStep, rxSubmit, rxPut, rxReturn, rxEmit, ppeEntry, ppeReturn, ppeEnd, txqEntry,
      txqReturn, msegLook, msegTake, eventPut, eventReturn, hcore1, hcore3, hppe]

theorem queueInit_queue (rx : RxState) (band : Band) :
    (rx.queueInit band).pkts band = [] ∧ (rx.queueInit band).msegs band = [] := by
  unfold RxState.queueInit RxState.pkts RxState.msegs
  dsimp only
  rw [Function.update_self, Function.update_self]
  exact ⟨FlagRing.contents_empty (by decide), FlagRing.contents_empty (by decide)⟩

theorem queueInit_queue_of_ne (rx : RxState) {band other : Band} (hne : other ≠ band) :
    (rx.queueInit band).pkts other = rx.pkts other ∧
      (rx.queueInit band).msegs other = rx.msegs other := by
  unfold RxState.queueInit RxState.pkts RxState.msegs
  dsimp only
  rw [Function.update_of_ne hne, Function.update_of_ne hne]
  exact ⟨rfl, rfl⟩

/-- Empty queues are well formed. -/
theorem Shape.queueInit {rx : RxState} (h : Shape rx) (hcore3 : rx.core3 = .idle) (band : Band) :
    Shape (rx.queueInit band) := by
  have hpkt : (FlagRing.empty : FlagRing PktEntry).contents eagleTxqEntries = [] :=
    FlagRing.contents_empty (by decide)
  have hmseg : (FlagRing.empty : FlagRing MsegEntry).contents eagleMsegEntries = [] :=
    FlagRing.contents_empty (by decide)
  refine ⟨?_, h.chain, ?_⟩
  · have hqueues : QueuesOk { rx with txq := Function.update rx.txq band FlagRing.empty } := by
      refine h.queues.setTxq (FlagRing.ok_empty (by decide)) ?_
      rw [hpkt]
      exact nofun
    refine hqueues.setMseg (FlagRing.ok_empty (by decide)) ?_
    rw [hmseg]
    exact nofun
  · unfold Core3Ok RxState.queueInit
    rw [hcore3]
    trivial

/-- What a ring's initialisation does to the queues. -/
theorem ringQueueInit_queue (rx : RxState) (ring : RxRing) {ready : RxRing → Bool} {band : Band}
    {own : RxRing} (hown : ∀ rx : RxState, rx.ringQueueInit own = rx.queueInit band)
    (hother : ring ≠ own → (rx.ringQueueInit ring).pkts band = rx.pkts band ∧
      (rx.ringQueueInit ring).msegs band = rx.msegs band)
    (hempty : ready own = true → rx.pkts band = [] ∧ rx.msegs band = [])
    (hready : Function.update ready ring true own = true) :
    (rx.ringQueueInit ring).pkts band = [] ∧ (rx.ringQueueInit ring).msegs band = [] := by
  by_cases heq : ring = own
  · rw [heq, hown]
    exact queueInit_queue rx band
  · rw [Function.update_of_ne (Ne.symm heq)] at hready
    rw [(hother heq).1, (hother heq).2]
    exact hempty hready

/-- A ring's initialisation keeps the harts at rest. -/
theorem RestartInv.ringInit {ring : RxRing} {ids : Multiset ℕ} (h : RestartInv b s ready)
    (hids : ids ≤ s.pool) :
    RestartInv b (s.ringInit ring ids ready) (Function.update ready ring true) := by
  have hcore1 : (s.rx.ringQueueInit ring).core1 = .idle := by cases ring <;> exact h.core1
  have hcore3 : (s.rx.ringQueueInit ring).core3 = .idle := by cases ring <;> exact h.core3
  have hppe : (s.rx.ringQueueInit ring).ppe = .idle := by cases ring <;> exact h.ppe
  have hchain : (s.rx.ringQueueInit ring).chain.Rests := by cases ring <;> exact h.chain
  have hshape : Shape (s.rx.ringQueueInit ring) := by
    cases ring with
    | rx0 => exact h.shape.queueInit h.core3 .band0
    | rx1 => exact h.shape.queueInit h.core3 .band1
    | txDone => exact h.shape
    | rxdmad => exact h.shape
  -- the records of the path are not touched by the queues
  have hrecords : (s.rx.ringQueueInit ring).forget = s.rx.ringQueueInit ring := by
    have hforget : (s.rx.ringQueueInit ring).forget = s.rx.forget.ringQueueInit ring := by
      cases ring <;> rfl
    rw [hforget, h.records]
  refine ⟨h.outside, hcore1, hcore3, hppe, hchain, hshape, hrecords, ?_, ?_, h.wire, ?_, ?_,
    h.sent, h.heard⟩
  · refine ringQueueInit_queue s.rx ring (fun _ => rfl) ?_ h.queues0
    intro hne
    cases ring with
    | rx0 => exact absurd rfl hne
    | rx1 => exact queueInit_queue_of_ne s.rx (by decide)
    | txDone => exact ⟨rfl, rfl⟩
    | rxdmad => exact ⟨rfl, rfl⟩
  · refine ringQueueInit_queue s.rx ring (fun _ => rfl) ?_ h.queues1
    intro hne
    cases ring with
    | rx0 => exact queueInit_queue_of_ne s.rx (by decide)
    | rx1 => exact absurd rfl hne
    | txDone => exact ⟨rfl, rfl⟩
    | rxdmad => exact ⟨rfl, rfl⟩
  · -- of the rings already filled anew only this one has other ids
    have hsum := sum_agree_off
      (fun r => if Function.update ready ring true r = true
        then Function.update s.desc ring ids r else 0)
      (fun r => if ready r = true then s.desc r else 0) ring (by
        intro r hr
        rw [Function.update_of_ne hr, Function.update_of_ne hr])
    rw [Function.update_self, Function.update_self, if_pos rfl] at hsum
    show readyDesc (s.ringInit ring ids ready) (Function.update ready ring true)
      ≤ ids + s.allocated
    calc readyDesc (s.ringInit ring ids ready) (Function.update ready ring true)
        ≤ readyDesc s ready + ids := le_trans le_self_add (le_of_eq hsum)
      _ ≤ ids + s.allocated := by
        rw [add_comm]
        gcongr
        exact h.drawn
  · show s.pool - ids + (ids + s.allocated) = Multiset.range b.bufidPoolEntries
    rw [← add_assoc, tsub_add_cancel_of_le hids]
    exact h.pool

/-- The reset of the pool finds the harts at rest. -/
theorem EpochInv.reset (h : EpochInv b s) (hrest : ResetsAtRest s .reset) :
    RestartInv b (s.rxBufidPoolReset b) fun _ => false := by
  obtain ⟨hout, hcore1, hcore3, hppe, hchain, hwire⟩ := hrest
  refine ⟨hout, hcore1, hcore3, hppe, hchain, ?_, rfl, ?_, ?_, hwire, ?_, ?_, rfl, rfl⟩
  · exact h.shape.congr rfl rfl h.shape.chain rfl
  · intro hready
    cases hready
  · intro hready
    cases hready
  · simp [readyDesc]
  · exact add_zero _

/-- When every ring is initialised, all a place has was allocated since
    the reset. -/
theorem RestartInv.enable (h : RestartInv b s ready) (hready : ∀ ring, ready ring = true) :
    EpochInv b { s with phase := .running } := by
  obtain ⟨hpkt0, hmseg0⟩ := h.queues0 (hready _)
  obtain ⟨hpkt1, hmseg1⟩ := h.queues1 (hready _)
  have hnone : ¬(s.rx.chain.chaining = true ∧ s.rx.chain.abort = false) := by
    intro hchain
    have habort := h.chain hchain.1
    rw [hchain.2] at habort
    cases habort
  have hhanded : s.rx.handed = 0 := by rw [← h.records]; rfl
  have hreturned : s.rx.returned = 0 := by rw [← h.records]; rfl
  have htdma : s.rx.tdma = 0 := by rw [← h.records]; rfl
  have houts : s.rx.outs = [] := by rw [← h.records]; rfl
  unfold RxState.pkts at hpkt0 hpkt1
  unfold RxState.msegs at hmseg0 hmseg1
  refine ⟨⟨0, h.shape.congr rfl rfl h.shape.chain rfl, ?_⟩, ?_, ?_, ?_, ?_⟩
  · unfold Balanced liveTotal
    simp [RxState.lose, pktHeld, msegHeld, hpkt0, hpkt1, hmseg0, hmseg1, chainHeld, hnone,
      h.core1, h.core3, h.ppe, core1Held, core3Held, ppeHeld, hhanded, hreturned, htdma]
  · have hdrawn := h.drawn
    simp only [readyDesc, hready, if_true] at hdrawn
    show ∑ ring, s.desc ring + s.rx.handed + s.wire ≤ s.allocated + s.rx.tdma
    rw [hhanded, h.wire, htdma, add_zero, add_zero, add_zero]
    exact hdrawn
  · show s.pool + s.allocated = Multiset.range b.bufidPoolEntries + s.rx.returned
    rw [h.pool, hreturned, add_zero]
  · show segsHeld s.rx + s.sent ≤ s.heard
    rw [h.sent]
    simp [segsHeld, core1Segs, chainSegs, queueSegs, takenSegs, RxState.pkts, RxState.msegs, hpkt1,
      hmseg1, hnone, h.core1, h.core3, Core1Pc.whole, Core3Pc.taken, houts]
  · intro g hg
    have hheard : g ∈ s.heard := hg
    rw [h.heard] at hheard
    cases hheard

end restart

/-! ## A restart -/

/-- The host initialises the rings, `ids` under the first, and enables the
    receive path. -/
def HostState.restart (s : HostState) (ids : Multiset ℕ) : HostState :=
  let ready0 := Function.update (fun _ => false) RxRing.rx0 true
  let ready1 := Function.update ready0 RxRing.rx1 true
  let ready2 := Function.update ready1 RxRing.txDone true
  let s := s.ringInit .rx0 ids fun _ => false
  let s := (s.ringInit .rx1 0 ready0).ringInit .txDone 0 ready1
  { s.ringInit .rxdmad 0 ready2 with phase := .running }

theorem reachable_restart {guard : HostState → HostAction → Prop} {s : HostState}
    {ids : Multiset ℕ} (hguard : ∀ s a, a ≠ .reset → guard s a)
    (h : ((hostSystem b).guarded guard).Reachable s)
    (hphase : s.phase = .restart fun _ => false) (hids : ids ≤ s.pool) :
    ((hostSystem b).guarded guard).Reachable (s.restart ids) := by
  have h0 := h.step (.ringInit .rx0 ids) ⟨hguard _ _ nofun, _, hphase, hids, nofun, rfl⟩
  have h1 := h0.step (.ringInit .rx1 0)
    ⟨hguard _ _ nofun, _, rfl, Multiset.zero_le _, nofun, rfl⟩
  have h2 := h1.step (.ringInit .txDone 0)
    ⟨hguard _ _ nofun, _, rfl, Multiset.zero_le _, nofun, rfl⟩
  have h3 := h2.step (.ringInit .rxdmad 0)
    ⟨hguard _ _ nofun, _, rfl, Multiset.zero_le _, fun _ => rfl, rfl⟩
  refine h3.step .enable ⟨hguard _ _ nofun, ⟨_, rfl, ?_⟩, rfl⟩
  intro ring
  cases ring <;> rfl

/-! ## Every run -/

theorem EpochInv.setPhase {s : HostState} (h : EpochInv b s) (phase : HostPhase)
    (inside : Hart → Bool) : EpochInv b { s with phase := phase, inside := inside } :=
  ⟨h.ledger, h.drawn, h.pool, h.heard, h.heardIds⟩

theorem HostInv.epoch_of {s : HostState} {phase : HostPhase} (h : HostInv b s)
    (hphase : s.phase = phase) (hrun : ∀ ready, phase ≠ .restart ready) : EpochInv b s := by
  refine h.epoch ?_
  rw [hphase]
  exact hrun

theorem hostInv_init (b : Build) : HostInv b (hostInit b) where
  epoch := fun hphase => absurd rfl (hphase _)
  restart := by
    intro ready hphase
    obtain rfl := HostPhase.restart.inj hphase
    refine ⟨fun _ => rfl, rfl, rfl, rfl, ?_, shape_init, rfl, ?_, ?_, rfl, ?_, add_zero _, rfl,
      rfl⟩
    · intro hchain
      cases hchain
    · intro hready
      cases hready
    · intro hready
      cases hready
    · simp [readyDesc]

theorem hostInv_step {s s' : HostState} {a : HostAction} (h : HostInv b s)
    (hguard : ResetsAtRest s a) (hstep : (hostSystem b).step s a s') : HostInv b s' := by
  cases a with
  -- only the reset and the mails behind it change the phase
  | enter hart =>
    obtain ⟨hphase, rfl⟩ := hstep
    refine ⟨fun _ => (h.epoch_of hphase nofun).setPhase s.phase _, ?_⟩
    intro ready hr
    have hr' : s.phase = .restart ready := hr
    rw [hphase] at hr'
    cases hr'
  | leave hart =>
    obtain ⟨-, rfl⟩ := hstep
    refine ⟨fun hphase => ?_, fun ready hphase => ?_⟩
    · exact (h.epoch hphase).setPhase s.phase _
    · have hrest := h.restart ready hphase
      refine { hrest with outside := ?_ }
      intro other
      show Function.update s.inside hart false other = false
      by_cases heq : other = hart
      · rw [heq, Function.update_self]
      · rw [Function.update_of_ne heq]
        exact hrest.outside other
  | rx ring a =>
    obtain ⟨hrun, rx, hrx, rfl⟩ := hstep
    refine ⟨fun hphase => (h.epoch hphase).rx hrun hrx, fun ready hphase => ?_⟩
    have hnone := (h.restart ready hphase).quiet hrun
    rw [hrx] at hnone
    cases hnone
  | refill ring id =>
    obtain ⟨hin, hid, rfl⟩ := hstep
    refine ⟨fun hphase => (h.epoch hphase).refill hid, fun ready hphase => ?_⟩
    have hout := (h.restart ready hphase).outside
    rcases hin with ⟨hin, -⟩ | ⟨hin, -⟩
    · rw [hout] at hin
      cases hin
    · rw [hout] at hin
      cases hin
  | stop =>
    obtain ⟨hphase, rfl⟩ := hstep
    refine ⟨fun _ => (h.epoch_of hphase nofun).setPhase .stopped s.inside, ?_⟩
    intro ready hr
    cases hr
  | reset =>
    obtain ⟨hphase, rfl⟩ := hstep
    refine ⟨fun hr => absurd rfl (hr _), ?_⟩
    intro ready hr
    obtain rfl := HostPhase.restart.inj hr
    exact (h.epoch_of hphase nofun).reset hguard
  | ringInit ring ids =>
    obtain ⟨ready, hphase, hids, -, rfl⟩ := hstep
    refine ⟨fun hr => absurd rfl (hr _), ?_⟩
    intro ready' hr
    obtain rfl := HostPhase.restart.inj hr
    exact (h.restart ready hphase).ringInit hids
  | enable =>
    obtain ⟨⟨ready, hphase, hready⟩, rfl⟩ := hstep
    refine ⟨fun _ => (h.restart ready hphase).enable hready, ?_⟩
    intro ready' hr
    cases hr

theorem hostInv_of_reachable {s : HostState}
    (h : ((hostSystem b).guarded ResetsAtRest).Reachable s) : HostInv b s := by
  refine h.invariant ?_ ?_
  · intro s hs
    obtain rfl : s = hostInit b := hs
    exact hostInv_init b
  · intro s a s' hinv hstep
    exact hostInv_step hinv hstep.1 hstep.2

/-- The receive path owns every id once, and neither an id nor a segment
    from before the last reset of the pool goes anywhere. -/
structure Restarted (b : Build) (s : HostState) : Prop where
  /-- no id is in two places: the free ring, under a descriptor, on the
      wire, in a queue, in the chain or in a hart's hands -/
  once : (s.pool + ∑ ring, s.desc ring + s.wire + ∑ p, live b s.rx p).Nodup
  /-- what is given back or held anywhere was allocated since the reset -/
  fresh : s.rx.returned + ∑ ring, s.desc ring + s.wire + ∑ p, live b s.rx p ≤ s.allocated
  /-- what goes up to the host was received since the reset -/
  up : ↑(s.rx.outs.flatten.map (·.seg)) + s.sent ≤ s.heard
  /-- in buffers allocated since -/
  upIds : ∀ g ∈ s.heard, g.bufId ∈ s.allocated

/-- In every run whose resets of the pool find the harts at rest and no
    chain being collected, the receive path survives stop and restart. -/
theorem rx_survives_restart (b : Build) (s : HostState)
    (h : ((hostSystem b).guarded ResetsAtRest).Reachable s)
    (hphase : ∀ ready, s.phase ≠ .restart ready) : Restarted b s := by
  have hepoch := (hostInv_of_reachable h).epoch hphase
  have hplaces := hepoch.places
  refine ⟨?_, ?_, ?_, hepoch.heardIds⟩
  -- with the free ring's ids these are at most the pool's, each once
  · rw [sum_live]
    refine Multiset.nodup_of_le ?_ (Multiset.nodup_range b.bufidPoolEntries)
    have hpool : s.pool + (s.rx.returned + ∑ ring, s.desc ring + s.wire + liveTotal b s.rx)
        ≤ Multiset.range b.bufidPoolEntries + s.rx.returned := by
      rw [← hepoch.pool]
      gcongr
    refine (add_le_add_iff_right s.rx.returned).mp (le_trans (le_of_eq ?_) hpool)
    abel
  · rw [sum_live]
    exact hplaces
  · refine le_trans ?_ hepoch.heard
    gcongr
    unfold segsHeld takenSegs
    exact le_trans le_add_self le_add_self

/-- The path is stopped and restarted, then the first segment of a frame
    arrives in buffer 5. -/
theorem rx_survives_restart_idle : ∃ s, s.rx.chain.segs = [⟨5, 100⟩] ∧ s.heard = {⟨5, 100⟩} ∧
    Restarted ⟨.an7583, .mt7992⟩ s := by
  have hguard : ∀ s a, a ≠ HostAction.reset → ResetsAtRest s a := by
    intro s a ha
    cases a with
    | reset => exact absurd rfl ha
    | _ => trivial
  have hids : {5} ≤ Multiset.range (Build.bufidPoolEntries ⟨.an7583, .mt7992⟩) :=
    Multiset.singleton_le.mpr (Multiset.mem_range.mpr (by decide))
  have hboot := reachable_restart (b := ⟨.an7583, .mt7992⟩) hguard (.init rfl) rfl hids
  have hstop := hboot.step HostAction.stop ⟨trivial, rfl, rfl⟩
  have hreset := hstop.step HostAction.reset
    ⟨⟨fun _ => rfl, rfl, rfl, rfl, nofun, rfl⟩, rfl, rfl⟩
  have hagain := reachable_restart hguard hreset rfl hids
  have henter := hagain.step (HostAction.enter .core1) ⟨trivial, rfl, rfl⟩
  have hseg := henter.step (HostAction.rx .rx0 (.rxd 0x00640000 0x00050000 false false))
    ⟨trivial, ⟨rfl, .inl rfl, Multiset.mem_singleton_self 5⟩, _, rfl, rfl⟩
  exact ⟨_, by decide +kernel, by decide +kernel, rx_survives_restart _ _ hseg nofun⟩

/-! ## A stop between two segments -/

/-- Core 1 has the first segment of a frame, in buffer 5, when the path is
    stopped. After the restart the chain still has it, and buffer 5 is
    under a descriptor: in some run the path does not survive. -/
theorem restart_keeps_chain : ¬∀ b s, (hostSystem b).Reachable s →
    (∀ ready, s.phase ≠ .restart ready) → Restarted b s := by
  intro hall
  have hids : {5} ≤ Multiset.range (Build.bufidPoolEntries ⟨.an7583, .mt7992⟩) :=
    Multiset.singleton_le.mpr (Multiset.mem_range.mpr (by decide))
  have hboot := @reachable_restart ⟨.an7583, .mt7992⟩ (fun _ _ => True) _ _
    (fun _ _ _ => trivial) (.init rfl) rfl hids
  have henter := hboot.step (HostAction.enter .core1) ⟨trivial, rfl, rfl⟩
  have hseg := henter.step (HostAction.rx .rx0 (.rxd 0x00640000 0x00050000 false false))
    ⟨trivial, ⟨rfl, .inl rfl, Multiset.mem_singleton_self 5⟩, _, rfl, rfl⟩
  have hleave := hseg.step (HostAction.leave .core1) ⟨trivial, rfl, rfl⟩
  have hstop := hleave.step HostAction.stop ⟨trivial, rfl, rfl⟩
  have hreset := hstop.step HostAction.reset ⟨trivial, rfl, rfl⟩
  have hagain := reachable_restart (fun _ _ _ => trivial) hreset rfl hids
  obtain ⟨s, hs, hdesc, hlive⟩ : ∃ s, s ∈ {s | (hostSystem ⟨.an7583, .mt7992⟩).Reachable s ∧
      ∀ ready, s.phase ≠ .restart ready} ∧ 5 ∈ s.desc .rx0 ∧
      5 ∈ live ⟨.an7583, .mt7992⟩ s.rx .chain :=
    ⟨_, ⟨.of_guarded hagain, nofun⟩, Multiset.mem_singleton_self 5, by decide +kernel⟩
  have honce := Multiset.nodup_iff_count_le_one.mp (hall _ s hs.1 hs.2).once 5
  have hin1 : 5 ∈ ∑ ring, s.desc ring := Multiset.mem_of_le
    (Finset.single_le_sum (fun ring _ => Multiset.zero_le (s.desc ring)) (Finset.mem_univ _)) hdesc
  have hin2 : 5 ∈ ∑ p, live ⟨.an7583, .mt7992⟩ s.rx p := Multiset.mem_of_le
    (Finset.single_le_sum (fun p _ => Multiset.zero_le (live _ s.rx p)) (Finset.mem_univ _)) hlive
  rw [← Multiset.one_le_count_iff_mem] at hin1 hin2
  rw [Multiset.count_add, Multiset.count_add, Multiset.count_add] at honce
  omega

end ClankerNPU.EagleRx
