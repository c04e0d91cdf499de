import ClankerNPU.EagleRx.Splice
import ClankerNPU.EagleRx.Conservation

/-! # Stop and restart of the receive path

    The host stops the receive path by mail, has the pool of rx buffer
    ids reset and the rings initialised, and enables the path again. The
    harts read the flags at the heads of their loops; what they hold in
    their hands and in the chain arrays no mail clears. In which order
    the free ring hands its ids out is left open. -/

open scoped BigOperators

namespace ClankerNPU.EagleRx

open Circular Custody

variable {b : Build}

/-! ## The host's mails -/

/-- The rings the mails initialise: both rx rings and the tx done ring,
    which have rx buffers, and the rxdmad ring, which has reports. -/
inductive RxRing where
  | rx0
  | rx1
  | txDone
  | rxdmad
  deriving DecidableEq

instance : Fintype RxRing where
  elems := {.rx0, .rx1, .txDone, .rxdmad}
  complete := by intro r; cases r <;> decide

/-- The harts that wait for the flags. -/
inductive Hart where
  | core1
  | core3
  | core4
  deriving DecidableEq

/-- Where the host is with its mails. -/
inductive HostPhase where
  /-- `eagle_rx_en`, `eagle_tx_en` and `eagle_rro_state` are set -/
  | running
  /-- case 4 has cleared them -/
  | stopped
  /-- case 6 has reset the pool; `ready`: initialised since -/
  | restart (ready : RxRing → Bool)

/-- The receive path with the ids it works on. The last three fields only
    record what happened since the pool was reset. -/
structure HostState where
  rx : RxState
  /-- the ids in the free ring -/
  pool : Multiset ℕ
  /-- the ids under a ring's descriptors -/
  desc : RxRing → Multiset ℕ
  /-- the ids TDMA took and the PPE has not handed back -/
  wire : Multiset ℕ
  phase : HostPhase
  /-- the hart has seen the flags set and is in the body of its loop -/
  inside : Hart → Bool
  /-- the ids allocated -/
  allocated : Multiset ℕ
  /-- the segments read from descriptors -/
  heard : Multiset Seg
  /-- the frames of one buffer handed up -/
  sent : Multiset Seg

/-- `bufid_pool_init` and `eagle_queue_init` are done, no ring is
    initialised. -/
def hostInit (b : Build) : HostState where
  rx := eagleQueueInit
  pool := Multiset.range b.bufidPoolEntries
  desc := fun _ => 0
  wire := 0
  phase := .restart fun _ => false
  inside := fun _ => false
  allocated := 0
  heard := 0
  sent := 0

/-- The hart is at the end of its loop's body. -/
def RxState.rests (rx : RxState) : Hart → Prop
  | .core1 => rx.core1 = .idle
  | .core3 => rx.core3 = .idle
  | .core4 => True

/-- The id an action takes from under a descriptor. -/
def RxAction.fromRing : RxAction → Multiset ℕ
  | .rxd _ dw2 _ _ => {rxdBufId dw2}
  | .eventStart old _ => {old.toNat}
  | _ => 0

/-- The id an action takes out of the PPE's FIFO. -/
def RxAction.fromPpe : RxAction → Multiset ℕ
  | .ppeEntry v _ _ => {(v &&& 0xFFFF).toNat}
  | _ => 0

/-- The segment an action reads from a descriptor. -/
def RxAction.heard : RxAction → Multiset Seg
  | .rxd dw1 dw2 _ _ => {⟨rxdBufId dw2, infoSegLen (rxdInfo dw1 dw2)⟩}
  | _ => 0

/-- The segment a queued packet is. -/
def PktEntry.seg (e : PktEntry) : Seg := ⟨e.bufId, e.pktLen⟩

/-- The segment an entry stands for. -/
def MsegEntry.seg (e : MsegEntry) : Seg := ⟨e.bufId, e.pktLen⟩

/-- The chip's frame of one buffer that an action takes out of its queue
    for the host. -/
def RxAction.sends (rx : RxState) : RxAction → Multiset Seg
  | .txqEntry _ =>
    match rx.core3, (rx.txq .band1).slot (rx.txq .band1).ridx with
    | .txq .band1 _ _, some e => {e.seg}
    | _, _ => 0
  | _ => 0

/-- What a step of the receive path needs: the flags seen, and a buffer
    where it is read from. -/
def HostState.mayRun (s : HostState) (ring : RxRing) : RxAction → Prop
  | .rxd _ dw2 _ _ =>
    s.inside .core1 = true ∧ (ring = .rx0 ∨ ring = .rx1) ∧ rxdBufId dw2 ∈ s.desc ring
  | .eventStart old _ => s.inside .core3 = true ∧ ring = .txDone ∧ old.toNat ∈ s.desc ring
  | .txqStart _ | .msegStart => s.inside .core3 = true
  | .ppeStart => s.wire ≠ 0
  | .ppeEntry v _ _ => (v &&& 0xFFFF).toNat ∈ s.wire
  | _ => True

/-- The receive path goes on to `rx`: what it gave back is in the free
    ring, what it gave to TDMA on the wire. -/
def HostState.afterRx (s : HostState) (ring : RxRing) (a : RxAction) (rx : RxState) : HostState :=
  { s with
    rx := rx
    pool := s.pool + (rx.returned - s.rx.returned)
    desc := Function.update s.desc ring (s.desc ring - a.fromRing)
    wire := s.wire - a.fromPpe + (rx.tdma - s.rx.tdma)
    heard := a.heard + s.heard
    sent := a.sends s.rx + s.sent }

/-- A descriptor gets a buffer: core 4 fills the rx rings, core 3 the tx
    done ring. -/
def HostState.refill (s : HostState) (ring : RxRing) (id : ℕ) : HostState :=
  { s with
    pool := s.pool - {id}
    desc := Function.update s.desc ring (id ::ₘ s.desc ring)
    allocated := id ::ₘ s.allocated }

/-- The receive path's records start anew. -/
def RxState.forget (rx : RxState) : RxState :=
  { rx with handed := 0, returned := 0, tdma := 0, frames := [], drained := [], given := []
            outs := [] }

/-- `rx_bufid_pool_reset`: every id is in the free ring. -/
def HostState.rxBufidPoolReset (b : Build) (s : HostState) : HostState :=
  { s with
    rx := s.rx.forget
    pool := Multiset.range b.bufidPoolEntries
    phase := .restart fun _ => false
    allocated := 0
    heard := 0
    sent := 0 }

/-- `eagle_queue_init` -/
def RxState.queueInit (rx : RxState) (band : Band) : RxState :=
  { rx with txq := Function.update rx.txq band FlagRing.empty
            mseg := Function.update rx.mseg band FlagRing.empty }

/-- The queues `npu_mbox_init_rxd_wrapper` empties before it fills a
    ring. -/
def RxState.ringQueueInit (rx : RxState) : RxRing → RxState
  | .rx0 => rx.queueInit .band0
  | .rx1 => rx.queueInit .band1
  | _ => rx

/-- `npu_mbox_init_rxd_wrapper`: the ring gets the buffers `ids`. -/
def HostState.ringInit (s : HostState) (ring : RxRing) (ids : Multiset ℕ)
    (ready : RxRing → Bool) : HostState :=
  { s with
    rx := s.rx.ringQueueInit ring
    pool := s.pool - ids
    desc := Function.update s.desc ring ids
    phase := .restart (Function.update ready ring true)
    allocated := ids + s.allocated }

/-- A step of a hart, or a mail of the host. -/
inductive HostAction where
  /-- the hart finds the flags set at the head of its loop -/
  | enter (h : Hart)
  /-- the hart is back at the head of its loop -/
  | leave (h : Hart)
  /-- a step of the receive path; `ring`: where the descriptor lies -/
  | rx (ring : RxRing) (a : RxAction)
  | refill (ring : RxRing) (id : ℕ)
  /-- case 4 -/
  | stop
  /-- case 6: the pool is reset -/
  | reset
  | ringInit (ring : RxRing) (ids : Multiset ℕ)
  /-- cases 2 and 7 -/
  | enable

/-- The harts run while the host stops and restarts the receive path. -/
def hostSystem (b : Build) : StepSystem HostState HostAction where
  init := fun s => s = hostInit b
  step := fun s a s' =>
    match a with
    | .enter h => s.phase = .running ∧ s' = { s with inside := Function.update s.inside h true }
    | .leave h => s.rx.rests h ∧ s' = { s with inside := Function.update s.inside h false }
    | .rx ring a => s.mayRun ring a ∧ ∃ rx, rxStep b s.rx a = some rx ∧ s' = s.afterRx ring a rx
    | .refill ring id =>
      (s.inside .core4 = true ∧ (ring = .rx0 ∨ ring = .rx1) ∨
        s.inside .core3 = true ∧ ring = .txDone) ∧ id ∈ s.pool ∧ s' = s.refill ring id
    | .stop => s.phase = .running ∧ s' = { s with phase := .stopped }
    | .reset => s.phase = .stopped ∧ s' = s.rxBufidPoolReset b
    | .ringInit ring ids =>
      ∃ ready, s.phase = .restart ready ∧ ids ≤ s.pool ∧ (ring = .rxdmad → ids = 0) ∧
        s' = s.ringInit ring ids ready
    | .enable =>
      (∃ ready, s.phase = .restart ready ∧ ∀ ring, ready ring = true) ∧
        s' = { s with phase := .running }

/-! ## Records -/

section records

variable {s s' : RxState} {a : RxAction}

/-- What a step records: the id it was handed, and ids given back or to
    TDMA. -/
theorem rxStep_records (hstep : rxStep b s a = some s') :
    s'.handed = a.fromRing + a.fromPpe + s.handed ∧ s.returned ≤ s'.returned ∧
      s.tdma ≤ s'.tdma := by
  have hput : ∀ {t : RxState} {bufId segLen wcid info dst pktLen : ℕ} {flags : BitVec 8}
      {origin : Option (ℕ × ℕ)} {t' : RxState},
      eaglePktEnqueue t bufId segLen wcid info dst flags pktLen origin = some t' →
      t'.handed = t.handed ∧ t'.returned = t.returned ∧ t'.tdma = t.tdma := by
    intro t bufId segLen wcid info dst pktLen flags origin t' h
    rw [enqueue_frame h]
    exact ⟨rfl, rfl, rfl⟩
  cases a
  all_goals
    simp only [rxStep, rxd, rxSubmit, rxPut, rxReturn, rxEmit, ppeStart, ppeEntry, ppeReturn,
      ppeEnd, txqStart, txqEntry, txqReturn, msegStart, msegLook, msegTake, eventStart, eventPut,
      eventReturn, bufIdReturn] at hstep
    simp only [RxAction.fromRing, RxAction.fromPpe, zero_add, add_zero, Multiset.singleton_add]
    grind [le_self_add, Multiset.le_cons_self]

/-- The same state with `lost` given back in addition. -/
def RxState.lose (s : RxState) (lost : Multiset ℕ) : RxState :=
  { s with returned := s.returned + lost }

variable {lost : Multiset ℕ}

theorem enqueue_lose {bufId segLen wcid info dst pktLen : ℕ} {flags : BitVec 8}
    {origin : Option (ℕ × ℕ)} :
    eaglePktEnqueue (s.lose lost) bufId segLen wcid info dst flags pktLen origin
      = (eaglePktEnqueue s bufId segLen wcid info dst flags pktLen origin).map (·.lose lost) := by
  unfold eaglePktEnqueue
  dsimp only [RxState.lose]
  split
  · rw [Option.map_map]
    rfl
  · rw [Option.map_map]
    rfl

theorem bufIdReturn_lose (s : RxState) (ids : List ℕ) (lost : Multiset ℕ) :
    bufIdReturn (s.lose lost) ids = (bufIdReturn s ids).lose lost := by
  unfold bufIdReturn RxState.lose
  dsimp only
  rw [add_right_comm]

/-- No step reads what was given back. -/
theorem rxStep_lose (s : RxState) (a : RxAction) (lost : Multiset ℕ) :
    rxStep b (s.lose lost) a = (rxStep b s a).map (·.lose lost) := by
  have hcore1 : (s.lose lost).core1 = s.core1 := rfl
  have hcore3 : (s.lose lost).core3 = s.core3 := rfl
  have hppe : (s.lose lost).ppe = s.ppe := rfl
  have htxq : (s.lose lost).txq = s.txq := rfl
  have hmseg : (s.lose lost).mseg = s.mseg := rfl
  have hchain : (s.lose lost).chain = s.chain := rfl
  cases a with
  | rxd dw1 dw2 icv force =>
    simp only [rxStep, rxd, hcore1]
    cases s.core1 <;> rfl
  | submit ok =>
    simp only [rxStep, rxSubmit, hcore1]
    cases s.core1 <;> first | rfl | (cases ok <;> rfl)
  | put =>
    simp only [rxStep, rxPut, hcore1, enqueue_lose]
    cases s.core1
    case put id len =>
      dsimp only
      cases eaglePktEnqueue s id len 0 0 1 2 len none <;> rfl
    all_goals rfl
  | back =>
    simp only [rxStep, rxReturn, hcore1, hchain, bufIdReturn_lose]
    cases s.core1
    case abort rest => cases rest <;> rfl
    all_goals rfl
  | emit =>
    simp only [rxStep, rxEmit, hcore1, hchain]
    cases s.core1
    case emit i kept =>
      dsimp only
      split
      · rw [enqueue_lose]
        have hframes : (s.lose lost).frames = s.frames := rfl
        rw [hframes]
        cases eaglePktEnqueue s (s.chain.segBufid i) (u16 s.chain.seglen) 0 0 1
          (segFlags s.chain.count i) (s.chain.segLen i) (some (s.frames.length - 1, i)) <;> rfl
      · rfl
    all_goals rfl
  | ppeStart =>
    simp only [rxStep, EagleRx.ppeStart, hppe]
    cases s.ppe <;> rfl
  | ppeEntry v info hdr =>
    simp only [rxStep, EagleRx.ppeEntry, hppe]
    cases s.ppe
    case loop ids =>
      -- the entry's id is handed over first
      have hput := @enqueue_lose
        { s with ppe := .loop ids, handed := (v &&& 0xFFFF).toNat ::ₘ s.handed } lost
        (v &&& 0xFFFF).toNat (infoSegLen hdr) (info &&& ppeWifiBufWcid b).toNat
        ((info >>> 16) &&& 31).toNat 0 (infoSegLen hdr) 2 none
      dsimp only [RxState.lose] at hput ⊢
      split
      · split
        · rfl
        · dsimp only [bufIdReturn, Option.map_some]
          rw [add_right_comm]
      · rw [hput]
        generalize eaglePktEnqueue _ _ _ _ _ _ _ _ _ = r
        cases r <;> rfl
    all_goals rfl
  | ppeReturn =>
    simp only [rxStep, EagleRx.ppeReturn, hppe, bufIdReturn_lose]
    cases s.ppe <;> rfl
  | ppeEnd =>
    simp only [rxStep, EagleRx.ppeEnd, hppe, bufIdReturn_lose]
    cases s.ppe <;> rfl
  | txqStart band =>
    simp only [rxStep, EagleRx.txqStart, hcore3]
    cases s.core3 <;> rfl
  | txqEntry refused =>
    simp only [rxStep, EagleRx.txqEntry, hcore3, htxq]
    cases s.core3
    case txq band left ids =>
      dsimp only
      cases (s.txq band).slot (s.txq band).ridx with
      | none => rfl
      | some e =>
        dsimp only
        split <;> rfl
    all_goals rfl
  | txqReturn =>
    simp only [rxStep, EagleRx.txqReturn, hcore3, bufIdReturn_lose]
    cases s.core3 <;> rfl
  | msegStart =>
    simp only [rxStep, EagleRx.msegStart, hcore3, hmseg]
    cases s.core3
    case idle =>
      dsimp only
      split <;> rfl
    all_goals rfl
  | msegLook =>
    simp only [rxStep, EagleRx.msegLook, hcore3, hmseg]
    cases s.core3
    case mseg idx segs waited =>
      dsimp only
      cases (s.mseg .band1).slot idx with
      | none => rfl
      | some e =>
        dsimp only
        split_ifs <;> rfl
    all_goals rfl
  | msegTake room =>
    simp only [rxStep, EagleRx.msegTake, hcore3, hmseg]
    cases s.core3
    case msegTake ok left taken =>
      dsimp only [RxState.lose, bufIdReturn]
      split
      · split
        · rfl
        · dsimp only [Option.map_some]
          rw [add_right_comm]
      · split
        · dsimp only [Option.map_some]
          rw [add_right_comm]
        · rfl
    all_goals rfl
  | eventStart old dw1 =>
    simp only [rxStep, EagleRx.eventStart, hcore3]
    cases s.core3 <;> rfl
  | eventPut =>
    simp only [rxStep, EagleRx.eventPut, hcore3, enqueue_lose]
    cases s.core3
    case event id len =>
      dsimp only
      cases eaglePktEnqueue s id len 0 0 0 2 len none <;> rfl
    all_goals rfl
  | eventReturn =>
    simp only [rxStep, EagleRx.eventReturn, hcore3, bufIdReturn_lose]
    cases s.core3 <;> rfl

/-- Core 3 lets go of a packet of length zero and of no other. -/
theorem balanced_txqEntry_lose {refused : Bool} (h : Ledger b s)
    (hstep : EagleRx.txqEntry s refused = some s') : ∃ lost, Balanced b (s'.lose lost) := by
  by_cases hlengths : ∀ band left ids e, s.core3 = .txq band left ids →
      (s.txq band).slot (s.txq band).ridx = some e → e.segLen ≠ 0
  · refine ⟨0, ?_⟩
    have hsame : s'.lose 0 = s' := by simp [RxState.lose]
    rw [hsame]
    exact balanced_txqEntry h hlengths hstep
  · push Not at hlengths
    obtain ⟨band, left, ids, e, hpc, hhead, hzero⟩ := hlengths
    have hbal := h.balance
    unfold Balanced liveTotal at hbal
    rw [hpc, ← pktHeld_pop h.shape hhead] at hbal
    have hunsent : ¬(e.bufId < 2 ^ 31 ∧ e.segLen ≠ 0) := fun hsent => hsent.2 hzero
    unfold EagleRx.txqEntry at hstep
    rw [hpc] at hstep
    dsimp only at hstep
    rw [hhead] at hstep
    dsimp only at hstep
    rw [if_neg hunsent] at hstep
    refine ⟨{e.bufId}, ?_⟩
    split at hstep
    · obtain rfl := Option.some.inj hstep
      unfold Balanced liveTotal RxState.lose
      simp only [hbal, core3Held, ← Multiset.singleton_add]
      abel
    · obtain rfl := Option.some.inj hstep
      unfold Balanced liveTotal RxState.lose
      simp only [hbal, core3Held, ← Multiset.singleton_add]
      abel

theorem lose_lose (s : RxState) (lost more : Multiset ℕ) :
    (s.lose lost).lose more = s.lose (lost + more) := by
  unfold RxState.lose
  rw [add_assoc]

/-- Up to what core 3 lets go of, every step keeps the ledger. -/
theorem ledger_step (h : ∃ lost, Ledger b (s.lose lost)) (hstep : rxStep b s a = some s') :
    ∃ lost, Ledger b (s'.lose lost) := by
  obtain ⟨lost, hledger⟩ := h
  have hlose : rxStep b (s.lose lost) a = some (s'.lose lost) := by
    rw [rxStep_lose, hstep]
    rfl
  have hshape := shape_step hledger.shape hlose
  by_cases ha : ∃ refused, a = .txqEntry refused
  · obtain ⟨refused, rfl⟩ := ha
    obtain ⟨more, hmore⟩ := balanced_txqEntry_lose hledger hlose
    rw [lose_lose] at hmore
    exact ⟨lost + more, hshape.congr rfl rfl hshape.chain rfl, hmore⟩
  · exact ⟨lost, hshape, hledger.step (fun refused heq => ha ⟨refused, heq⟩) hlose⟩

end records

/-! ## Segments -/

/-- The segments core 1 has collected and not yet passed on. -/
def chainSegs (c : RxChain) (pc : Core1Pc) : List Seg :=
  if c.chaining = true ∧ c.abort = false then c.segs.drop pc.sent else []

/-- The frame of one buffer in core 1's hands. -/
def Core1Pc.whole : Core1Pc → List Seg
  | .put id len => [⟨id, len⟩]
  | _ => []

/-- The segments in core 1's hands. -/
def core1Segs (c : RxChain) (pc : Core1Pc) : Multiset Seg := ↑(chainSegs c pc) + ↑pc.whole

/-- The segments queued for the host. -/
def queueSegs (s : RxState) : Multiset Seg :=
  ↑((s.pkts .band1).map (·.seg)) + ↑((s.msegs .band1).map (·.seg))

/-- The segments core 3 took out of the multi-segment queue: those in its
    hands and those it handed up. -/
def takenSegs (s : RxState) : Multiset Seg :=
  ↑(s.core3.taken.map (·.seg)) + ↑(s.outs.flatten.map (·.seg))

/-- The segments in the chain, in the queues, in core 3's hands and with
    the host. -/
def segsHeld (s : RxState) : Multiset Seg :=
  core1Segs s.chain s.core1 + queueSegs s + takenSegs s

section segs

variable {s s' : RxState}

theorem queueSegs_congr (htxq : s'.txq .band1 = s.txq .band1)
    (hmseg : s'.mseg .band1 = s.mseg .band1) : queueSegs s' = queueSegs s := by
  unfold queueSegs RxState.pkts RxState.msegs
  rw [htxq, hmseg]

/-- An enqueue for the host adds its segment. -/
theorem queueSegs_enqueue {bufId segLen wcid info pktLen : ℕ} {flags : BitVec 8}
    {origin : Option (ℕ × ℕ)} (h : Shape s) (hid : bufId < 2 ^ 16)
    (hput : eaglePktEnqueue s bufId segLen wcid info 1 flags pktLen origin = some s') :
    queueSegs s' = ⟨bufId, pktLen⟩ ::ₘ queueSegs s := by
  have hband : queueBand 1 = .band1 := rfl
  rcases enqueue_cases hput with ⟨-, r, hr, rfl⟩ | ⟨-, r, hr, rfl⟩
  · have hcont := (h.queues.putTxq hid hr).2
    have hnew : queueSegs { s with txq := Function.update s.txq .band1 r }
        = ↑((r.contents eagleTxqEntries).map (·.seg)) + ↑((s.msegs .band1).map (·.seg)) := by
      unfold queueSegs RxState.pkts
      dsimp only
      rw [Function.update_self]
      rfl
    rw [hband] at hcont ⊢
    rw [hnew, hcont, List.map_append, ← Multiset.coe_add, List.map_singleton,
      Multiset.coe_singleton, ← Multiset.singleton_add]
    unfold queueSegs
    dsimp only [PktEntry.seg]
    abel
  · have hcont := (h.queues.putMseg hid hr).2
    have hnew : queueSegs { s with mseg := Function.update s.mseg .band1 r }
        = ↑((s.pkts .band1).map (·.seg)) + ↑((r.contents eagleMsegEntries).map (·.seg)) := by
      unfold queueSegs RxState.msegs
      dsimp only
      rw [Function.update_self]
      rfl
    rw [hband] at hcont ⊢
    rw [hnew, hcont, List.map_append, ← Multiset.coe_add, List.map_singleton,
      Multiset.coe_singleton, ← Multiset.singleton_add]
    unfold queueSegs
    dsimp only [MsegEntry.seg]
    abel

theorem queueSegs_txq_band0 (s : RxState) (r : FlagRing PktEntry) :
    queueSegs { s with txq := Function.update s.txq .band0 r } = queueSegs s := by
  have hne : Band.band1 ≠ Band.band0 := by decide
  exact queueSegs_congr (s := s) (by dsimp only; rw [Function.update_of_ne hne]) rfl

theorem queueSegs_mseg_band0 (s : RxState) (r : FlagRing MsegEntry) :
    queueSegs { s with mseg := Function.update s.mseg .band0 r } = queueSegs s := by
  have hne : Band.band1 ≠ Band.band0 := by decide
  exact queueSegs_congr (s := s) rfl (by dsimp only; rw [Function.update_of_ne hne])

/-- An enqueue for the PPE leaves the host's queues alone. -/
theorem queueSegs_enqueue_zero {bufId segLen wcid info pktLen : ℕ} {flags : BitVec 8}
    {origin : Option (ℕ × ℕ)}
    (hput : eaglePktEnqueue s bufId segLen wcid info 0 flags pktLen origin = some s') :
    queueSegs s' = queueSegs s := by
  rcases enqueue_cases hput with ⟨-, r, hr, rfl⟩ | ⟨-, r, hr, rfl⟩
  · exact queueSegs_txq_band0 s r
  · exact queueSegs_mseg_band0 s r

/-- A descriptor's segment joins those in core 1's hands, or is dropped. -/
theorem core1Segs_handle (c : RxChain) (dw1 dw2 : BitVec 32) (icv force : Bool) :
    core1Segs (eagleRxdmadHandle c dw1 dw2 icv force).1 (eagleRxdmadHandle c dw1 dw2 icv force).2
      ≤ {⟨rxdBufId dw2, infoSegLen (rxdInfo dw1 dw2)⟩} + core1Segs c .idle := by
  unfold eagleRxdmadHandle
  dsimp only
  split
  · next hwhole =>
    have hnone : chainSegs c (rxdWhole dw1 dw2 icv force) = [] := by
      simp [chainSegs, hwhole.2]
    unfold core1Segs
    rw [hnone]
    refine le_trans ?_ le_self_add
    unfold rxdWhole
    dsimp only
    split_ifs <;> simp [Core1Pc.whole]
  split
  · simp [core1Segs, chainSegs, Core1Pc.whole]
  -- the descriptor joins the chain, a new one or the one being collected
  · unfold rxdChained
    dsimp only
    cases hchaining : c.chaining with
    | false =>
      simp only [Bool.false_eq_true, if_false]
      split_ifs <;> simp [core1Segs, chainSegs, Core1Pc.whole, Core1Pc.sent, hchaining]
    | true =>
      simp only [if_true]
      split_ifs with habort hmore hmany
      · simp [core1Segs, chainSegs, Core1Pc.whole, habort]
      · simp [core1Segs, chainSegs, Core1Pc.whole]
      · simpa [core1Segs, chainSegs, Core1Pc.whole, Core1Pc.sent, hchaining, habort] using
          (List.perm_append_singleton _ c.segs).subperm
      · simpa [core1Segs, chainSegs, Core1Pc.whole, Core1Pc.sent, hchaining, habort] using
          (List.perm_append_singleton _ c.segs).subperm

theorem segsHeld_emit (h : Shape s) (hstep : rxEmit s = some s') : segsHeld s' ≤ segsHeld s := by
  have hchain := h.chain
  unfold rxEmit at hstep
  split at hstep
  · next i kept hpc =>
    rw [hpc] at hchain
    obtain ⟨hchaining, habort, hlen, hsent⟩ := hchain.complete rfl
    have hcount := ChainOk.count_eq hlen
    dsimp only at hstep
    unfold segsHeld
    rw [hpc]
    split at hstep
    · next hi =>
      rw [hcount] at hi
      -- the chain gives up its next segment
      have hnext : chainSegs s.chain (.emit i kept)
          = ⟨s.chain.segBufid i, s.chain.segLen i⟩ :: chainSegs s.chain (.emitDrop i) := by
        unfold chainSegs
        rw [if_pos ⟨hchaining, habort⟩, if_pos ⟨hchaining, habort⟩]
        show s.chain.segs.drop i = _ :: s.chain.segs.drop (i + 1)
        rw [List.drop_eq_getElem_cons hi]
        congr 1
        simp [RxChain.segBufid, RxChain.segLen, hi]
      have hcore1 : core1Segs s.chain (.emit i kept)
          = ⟨s.chain.segBufid i, s.chain.segLen i⟩ ::ₘ core1Segs s.chain (.emitDrop i) := by
        unfold core1Segs
        rw [hnext, ← Multiset.cons_coe, Multiset.cons_add]
        rfl
      rw [hcore1]
      split at hstep
      · next s1 hput =>
        obtain rfl := Option.some.inj hstep
        have hqueue := queueSegs_enqueue h (RxChain.segBufid_lt hchain.ids i) hput
        have hsame : ∀ pc, queueSegs { s1 with core1 := pc } = queueSegs s1 := fun _ => rfl
        rw [hsame, hqueue, enqueue_frame hput]
        apply le_of_eq
        rw [Multiset.add_cons, Multiset.cons_add]
        rfl
      · obtain rfl := Option.some.inj hstep
        rw [Multiset.cons_add, Multiset.cons_add]
        exact Multiset.le_cons_self _ _
    · next hi =>
      obtain rfl := Option.some.inj hstep
      have hdone : core1Segs { s.chain with chaining := false } .idle = 0 := by
        simp [core1Segs, chainSegs, Core1Pc.whole]
      rw [hdone, zero_add]
      exact add_le_add_left le_add_self _
  · cases hstep

theorem segsHeld_rxd {dw1 dw2 : BitVec 32} {icv force : Bool}
    (hstep : rxd s dw1 dw2 icv force = some s') :
    segsHeld s' ≤ {⟨rxdBufId dw2, infoSegLen (rxdInfo dw1 dw2)⟩} + segsHeld s := by
  unfold rxd at hstep
  split at hstep
  · next hpc =>
    obtain rfl := Option.some.inj hstep
    unfold segsHeld
    rw [hpc, ← add_assoc, ← add_assoc]
    exact add_le_add_left (add_le_add_left (core1Segs_handle s.chain dw1 dw2 icv force) _) _
  · cases hstep

/-- A packet leaves its queue; the host gets it or nobody. -/
theorem segsHeld_txqEntry {refused : Bool} (h : Shape s)
    (hstep : EagleRx.txqEntry s refused = some s') :
    segsHeld s' + (RxAction.txqEntry refused).sends s ≤ segsHeld s := by
  unfold EagleRx.txqEntry at hstep
  split at hstep
  · next band left ids hpc =>
    have htaken : ∀ t : RxState, t.core3.taken = [] → t.outs = s.outs →
        takenSegs t = takenSegs s := by
      intro t ht houts
      unfold takenSegs
      rw [ht, houts, hpc]
      rfl
    split at hstep
    · next hhead =>
      obtain rfl := Option.some.inj hstep
      have hsends : (RxAction.txqEntry refused).sends s = 0 := by
        unfold RxAction.sends
        dsimp only
        rw [hpc]
        cases band with
        | band0 => rfl
        | band1 => rw [hhead]
      rw [hsends, add_zero]
      unfold segsHeld
      rw [htaken { s with core3 := .txqEnd ids } rfl rfl]
      exact le_rfl
    · next e hhead =>
      -- submitted or not, the head of the queue is gone
      have hmove : segsHeld s' = core1Segs s.chain s.core1 + queueSegs { s with
          txq := Function.update s.txq band ((s.txq band).pop eagleTxqEntries) }
          + takenSegs s := by
        dsimp only at hstep
        unfold segsHeld
        split at hstep
        · obtain rfl := Option.some.inj hstep
          refine congrArg₂ (· + ·) rfl ?_
          exact htaken _ rfl rfl
        · obtain rfl := Option.some.inj hstep
          refine congrArg₂ (· + ·) rfl ?_
          exact htaken _ rfl rfl
      rw [hmove]
      unfold segsHeld
      cases band with
      | band0 =>
        have hsends : (RxAction.txqEntry refused).sends s = 0 := by
          unfold RxAction.sends
          dsimp only
          rw [hpc]
        rw [hsends, add_zero, queueSegs_txq_band0]
      | band1 =>
        -- band 1 goes up, band 0 to the wire
        have hsends : (RxAction.txqEntry refused).sends s = {e.seg} := by
          unfold RxAction.sends
          dsimp only
          rw [hpc, hhead]
        have hcont := (h.queues.popTxq hhead).2
        have hqueue : queueSegs s = {e.seg} + queueSegs { s with
            txq := Function.update s.txq .band1 ((s.txq .band1).pop eagleTxqEntries) } := by
          unfold queueSegs
          rw [hcont, List.map_cons, ← Multiset.cons_coe, ← Multiset.singleton_add, add_assoc]
          unfold RxState.pkts
          dsimp only
          rw [Function.update_self]
          rfl
        rw [hsends, hqueue]
        apply le_of_eq
        abel
  · cases hstep

/-- A segment core 3 takes stays in its hands, goes up or is let go. -/
theorem segsHeld_msegTake {room : Bool} (h : Shape s)
    (hstep : EagleRx.msegTake b s room = some s') : segsHeld s' ≤ segsHeld s := by
  unfold EagleRx.msegTake at hstep
  split at hstep
  · next ok left taken hpc =>
    dsimp only at hstep
    split at hstep
    · next hleft =>
      obtain ⟨e, he⟩ := h.take_head hpc hleft
      rw [he, Option.getD_some] at hstep
      have hcont := (h.queues.popMseg he).2
      -- a segment left to take: from the queue into the hands
      have hqueue : queueSegs s = {e.seg} + queueSegs { s with
          mseg := Function.update s.mseg .band1 ((s.mseg .band1).pop eagleMsegEntries) } := by
        unfold queueSegs
        rw [hcont, List.map_cons, ← Multiset.cons_coe, ← Multiset.singleton_add]
        unfold RxState.msegs
        dsimp only
        rw [Function.update_self]
        rw [add_left_comm]
        rfl
      have htaken : ∀ t : RxState, t.core3 = .msegTake ok (left - 1) (taken ++ [e]) →
          t.outs = s.outs → takenSegs t = {e.seg} + takenSegs s := by
        intro t ht houts
        unfold takenSegs
        rw [ht, houts, hpc]
        simp only [Core3Pc.taken, List.map_append, List.map_singleton, ← Multiset.coe_add,
          Multiset.coe_singleton]
        abel
      have hmove : takenSegs s' = {e.seg} + takenSegs s ∧
          core1Segs s'.chain s'.core1 + queueSegs s'
            = core1Segs s.chain s.core1 + queueSegs { s with
              mseg := Function.update s.mseg .band1 ((s.mseg .band1).pop eagleMsegEntries) } := by
        split at hstep
        · obtain rfl := Option.some.inj hstep
          exact ⟨htaken _ rfl rfl, rfl⟩
        · obtain rfl := Option.some.inj hstep
          exact ⟨htaken _ rfl rfl, rfl⟩
      apply le_of_eq
      unfold segsHeld
      rw [hmove.1, hmove.2, hqueue]
      abel
    · -- none left: those in hand go up together, or nobody gets them
      have hout : ∀ t : RxState, t.core3 = .idle →
          t.outs = (if ok ∧ room then s.outs ++ [taken] else s.outs) →
          takenSegs t ≤ takenSegs s := by
        intro t ht houts
        unfold takenSegs
        rw [ht, houts, hpc]
        simp only [Core3Pc.taken, List.map_nil, Multiset.coe_nil, zero_add]
        split_ifs
        · rw [List.flatten_append, List.map_append, ← Multiset.coe_add, add_comm]
          simp
        · exact le_add_self
      unfold segsHeld
      split at hstep
      · obtain rfl := Option.some.inj hstep
        exact add_le_add_right (hout _ rfl rfl) _
      · obtain rfl := Option.some.inj hstep
        exact add_le_add_right (hout _ rfl rfl) _
  · cases hstep

theorem segsHeld_congr (hcore1 : core1Segs s'.chain s'.core1 = core1Segs s.chain s.core1)
    (hqueue : queueSegs s' = queueSegs s) (htaken : s'.core3.taken = s.core3.taken)
    (houts : s'.outs = s.outs) : segsHeld s' = segsHeld s := by
  unfold segsHeld takenSegs
  rw [hcore1, hqueue, htaken, houts]

theorem segsHeld_submit {ok : Bool} (hstep : rxSubmit s ok = some s') :
    segsHeld s' = segsHeld s := by
  unfold rxSubmit at hstep
  split at hstep
  · next id len hpc =>
    obtain rfl := Option.some.inj hstep
    cases ok with
    | true => exact segsHeld_congr (by rw [hpc]; rfl) rfl rfl rfl
    | false => exact segsHeld_congr (by rw [hpc]; rfl) rfl rfl rfl
  · cases hstep

theorem segsHeld_put (h : Shape s) (hstep : rxPut s = some s') : segsHeld s' ≤ segsHeld s := by
  unfold rxPut at hstep
  split at hstep
  · next id len hpc =>
    have hchain := h.chain
    rw [hpc] at hchain
    have hhand : core1Segs s.chain (.put id len) = ⟨id, len⟩ ::ₘ core1Segs s.chain .idle := by
      unfold core1Segs Core1Pc.whole
      rw [Multiset.coe_singleton, Multiset.coe_nil, add_zero, add_comm, Multiset.singleton_add]
      rfl
    unfold segsHeld
    rw [hpc, hhand]
    split at hstep
    · next s1 hput =>
      obtain rfl := Option.some.inj hstep
      have hqueue := queueSegs_enqueue h (hchain.whole id len rfl) hput
      have hsame : ∀ pc, queueSegs { s1 with core1 := pc } = queueSegs s1 := fun _ => rfl
      rw [hsame, hqueue, enqueue_frame hput]
      apply le_of_eq
      rw [Multiset.add_cons, Multiset.cons_add]
      rfl
    · obtain rfl := Option.some.inj hstep
      rw [Multiset.cons_add, Multiset.cons_add]
      exact Multiset.le_cons_self _ _
  · cases hstep

theorem segsHeld_back (hstep : rxReturn s = some s') : segsHeld s' = segsHeld s := by
  unfold rxReturn at hstep
  split at hstep
  · next hpc =>
    obtain rfl := Option.some.inj hstep
    exact segsHeld_congr (by rw [hpc]; rfl) rfl rfl rfl
  · next hpc =>
    obtain rfl := Option.some.inj hstep
    exact segsHeld_congr (by rw [hpc]; rfl) rfl rfl rfl
  · next hpc =>
    obtain rfl := Option.some.inj hstep
    exact segsHeld_congr (by rw [hpc]; rfl) rfl rfl rfl
  · next hpc =>
    obtain rfl := Option.some.inj hstep
    exact segsHeld_congr (by rw [hpc]; rfl) rfl rfl rfl
  · cases hstep

theorem segsHeld_ppeEntry {v info hdr : BitVec 32}
    (hstep : EagleRx.ppeEntry b s v info hdr = some s') : segsHeld s' = segsHeld s := by
  unfold EagleRx.ppeEntry at hstep
  split at hstep
  · dsimp only at hstep
    split at hstep
    · split at hstep
      · obtain rfl := Option.some.inj hstep
        rfl
      · obtain rfl := Option.some.inj hstep
        rfl
    · split at hstep
      · next s1 hput =>
        obtain rfl := Option.some.inj hstep
        have hqueue := queueSegs_enqueue_zero hput
        rw [enqueue_frame hput] at hqueue ⊢
        exact segsHeld_congr rfl hqueue rfl rfl
      · obtain rfl := Option.some.inj hstep
        rfl
  · cases hstep

theorem segsHeld_eventPut (hstep : EagleRx.eventPut s = some s') : segsHeld s' = segsHeld s := by
  unfold EagleRx.eventPut at hstep
  split at hstep
  · next hpc =>
    split at hstep
    · next s1 hput =>
      obtain rfl := Option.some.inj hstep
      have hqueue := queueSegs_enqueue_zero hput
      rw [enqueue_frame hput] at hqueue ⊢
      exact segsHeld_congr rfl hqueue (by rw [hpc]; rfl) rfl
    · obtain rfl := Option.some.inj hstep
      exact segsHeld_congr rfl rfl (by rw [hpc]; rfl) rfl
  · cases hstep

theorem segsHeld_msegLook (hstep : EagleRx.msegLook s = some s') : segsHeld s' = segsHeld s := by
  unfold EagleRx.msegLook at hstep
  split at hstep
  · next hpc =>
    have hlook : ∀ pc : Core3Pc, pc.taken = [] → segsHeld { s with core3 := pc } = segsHeld s := by
      intro pc hnone
      exact segsHeld_congr rfl rfl (by rw [hpc]; exact hnone) rfl
    split at hstep
    · obtain rfl := Option.some.inj hstep
      apply hlook
      split_ifs <;> rfl
    · dsimp only at hstep
      split_ifs at hstep <;>
      · obtain rfl := Option.some.inj hstep
        exact hlook _ rfl
  · cases hstep

/-- The PPE's other steps touch no queue of the host's. -/
theorem segsHeld_ppe (hstep : EagleRx.ppeStart s = some s' ∨ EagleRx.ppeReturn s = some s' ∨
    EagleRx.ppeEnd s = some s') : segsHeld s' = segsHeld s := by
  unfold EagleRx.ppeStart EagleRx.ppeReturn EagleRx.ppeEnd at hstep
  rcases hstep with hstep | hstep | hstep
  all_goals split at hstep
  all_goals first
    | (obtain rfl := Option.some.inj hstep; rfl)
    | cases hstep

/-- Core 3 goes on with nothing in its hands. -/
theorem segsHeld_core3 (hstep : (∃ band, EagleRx.txqStart b s band = some s') ∨
    EagleRx.txqReturn s = some s' ∨ EagleRx.msegStart s = some s' ∨
    (∃ old dw1, EagleRx.eventStart s old dw1 = some s') ∨ EagleRx.eventReturn s = some s') :
    segsHeld s' = segsHeld s := by
  unfold EagleRx.txqStart EagleRx.txqReturn EagleRx.msegStart EagleRx.eventStart
    EagleRx.eventReturn at hstep
  rcases hstep with ⟨band, hstep⟩ | hstep | hstep | ⟨old, dw1, hstep⟩ | hstep
  · split at hstep
    · next hpc =>
      obtain rfl := Option.some.inj hstep
      exact segsHeld_congr rfl rfl (by rw [hpc]; rfl) rfl
    · cases hstep
  · split at hstep
    · next hpc =>
      obtain rfl := Option.some.inj hstep
      exact segsHeld_congr rfl rfl (by rw [hpc]; rfl) rfl
    · cases hstep
  · split at hstep
    · next hpc =>
      dsimp only at hstep
      split at hstep
      · obtain rfl := Option.some.inj hstep
        exact segsHeld_congr rfl rfl (by rw [hpc]; rfl) rfl
      · obtain rfl := Option.some.inj hstep
        rfl
    · cases hstep
  · split at hstep
    · next hpc =>
      obtain rfl := Option.some.inj hstep
      exact segsHeld_congr rfl rfl (by rw [hpc]; rfl) rfl
    · cases hstep
  · split at hstep
    · next hpc =>
      obtain rfl := Option.some.inj hstep
      exact segsHeld_congr rfl rfl (by rw [hpc]; rfl) rfl
    · cases hstep

/-- Every segment held was held before or is the descriptor's, and what
    goes up is held no more. -/
theorem segsHeld_step {a : RxAction} (h : Shape s) (hstep : rxStep b s a = some s') :
    segsHeld s' + a.sends s ≤ a.heard + segsHeld s := by
  have hquiet : segsHeld s' ≤ segsHeld s → segsHeld s' + 0 ≤ 0 + segsHeld s := by
    intro hle
    rw [add_zero, zero_add]
    exact hle
  cases a with
  | rxd dw1 dw2 icv force =>
    rw [show (RxAction.rxd dw1 dw2 icv force).sends s = 0 from rfl, add_zero]
    exact segsHeld_rxd hstep
  | submit ok => exact hquiet (segsHeld_submit hstep).le
  | put => exact hquiet (segsHeld_put h hstep)
  | back => exact hquiet (segsHeld_back hstep).le
  | emit => exact hquiet (segsHeld_emit h hstep)
  | ppeEntry v info hdr => exact hquiet (segsHeld_ppeEntry hstep).le
  | txqEntry refused =>
    rw [show (RxAction.txqEntry refused).heard = 0 from rfl, zero_add]
    exact segsHeld_txqEntry h hstep
  | msegLook => exact hquiet (segsHeld_msegLook hstep).le
  | msegTake room => exact hquiet (segsHeld_msegTake h hstep)
  | eventPut => exact hquiet (segsHeld_eventPut hstep).le
  | ppeStart => exact hquiet (segsHeld_ppe (.inl hstep)).le
  | ppeReturn => exact hquiet (segsHeld_ppe (.inr (.inl hstep))).le
  | ppeEnd => exact hquiet (segsHeld_ppe (.inr (.inr hstep))).le
  | txqStart band => exact hquiet (segsHeld_core3 (.inl ⟨band, hstep⟩)).le
  | txqReturn => exact hquiet (segsHeld_core3 (b := b) (.inr (.inl hstep))).le
  | msegStart => exact hquiet (segsHeld_core3 (b := b) (.inr (.inr (.inl hstep)))).le
  | eventStart old dw1 =>
    exact hquiet (segsHeld_core3 (b := b) (.inr (.inr (.inr (.inl ⟨old, dw1, hstep⟩))))).le
  | eventReturn => exact hquiet (segsHeld_core3 (b := b) (.inr (.inr (.inr (.inr hstep))))).le

end segs

end ClankerNPU.EagleRx
