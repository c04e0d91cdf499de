import ClankerNPU.EagleRx.Queues
import ClankerNPU.Lib.Custody

/-! # Every rx buffer id goes on to one place

    Each id the chip or the PPE hands over is given back, given to TDMA,
    or live: in a queue, in the chain being collected, or in a hart's
    hands during a call. The ledger balances in every run in which no
    packet of length zero enters a packet queue. `eagle_txq_drain` clears
    the entry of such a packet without giving its id back; the last
    section follows one. -/

open scoped BigOperators

namespace ClankerNPU.EagleRx

open Circular Custody

variable {b : Build} {s s' : RxState}

/-! ## Places -/

/-- Where an id can be between its hand-over and its return. -/
inductive Place where
  | pktQueue
  | msegQueue
  | chain
  | core1
  | core3
  | ppe
  deriving DecidableEq

instance : Fintype Place where
  elems := {.pktQueue, .msegQueue, .chain, .core1, .core3, .ppe}
  complete := by intro p; cases p <;> decide

/-- The ids in the packet queues. -/
def pktHeld (txq : Band → FlagRing PktEntry) : Multiset ℕ :=
  (((txq .band0).contents eagleTxqEntries).map (·.bufId) : Multiset ℕ)
    + (((txq .band1).contents eagleTxqEntries).map (·.bufId) : Multiset ℕ)

/-- The ids in the multi-segment queues. -/
def msegHeld (mseg : Band → FlagRing MsegEntry) : Multiset ℕ :=
  (((mseg .band0).contents eagleMsegEntries).map (·.bufId) : Multiset ℕ)
    + (((mseg .band1).contents eagleMsegEntries).map (·.bufId) : Multiset ℕ)

/-- The ids core 1 has collected and not yet passed on. -/
def chainHeld (c : RxChain) (pc : Core1Pc) : List ℕ :=
  if c.chaining = true ∧ c.abort = false then (c.segs.map (·.bufId)).drop pc.sent else []

/-- The ids in core 1's hands. -/
def core1Held (c : RxChain) : Core1Pc → List ℕ
  | .submit id _ | .put id _ | .drop id => [id]
  | .abort rest => rest
  | .emitDrop i => [c.segBufid i]
  | _ => []

/-- The ids in core 3's hands. -/
def core3Held (b : Build) : Core3Pc → List ℕ
  | .txq _ _ ids | .txqEnd ids => ids
  | .msegTake _ _ taken => if b.hasIdBatch then taken.map fun e => u16 e.bufId else []
  | .event id _ | .eventDrop id => [id]
  | _ => []

/-- The ids in the hands of the hart that serves the PPE. -/
def ppeHeld : PpePc → List ℕ
  | .loop ids | .full ids => ids
  | .drop id ids => id :: ids
  | .idle => []

/-- The live ids of each place. -/
def live (b : Build) (s : RxState) : Place → Multiset ℕ
  | .pktQueue => pktHeld s.txq
  | .msegQueue => msegHeld s.mseg
  | .chain => chainHeld s.chain s.core1
  | .core1 => core1Held s.chain s.core1
  | .core3 => core3Held b s.core3
  | .ppe => ppeHeld s.ppe

theorem sum_places (f : Place → Multiset ℕ) :
    ∑ p, f p = f .pktQueue + f .msegQueue + f .chain + f .core1 + f .core3 + f .ppe := by
  have huniv : (Finset.univ : Finset Place)
      = {.pktQueue, .msegQueue, .chain, .core1, .core3, .ppe} := rfl
  rw [huniv]
  simp
  abel

/-! ## The queues' ids -/

theorem pktHeld_update (txq : Band → FlagRing PktEntry) (band : Band) (r : FlagRing PktEntry) :
    pktHeld (Function.update txq band r)
        + (((txq band).contents eagleTxqEntries).map (·.bufId) : Multiset ℕ)
      = pktHeld txq + ((r.contents eagleTxqEntries).map (·.bufId) : Multiset ℕ) := by
  unfold pktHeld
  cases band with
  | band0 =>
    rw [Function.update_self, Function.update_of_ne (by decide)]
    abel
  | band1 =>
    rw [Function.update_self, Function.update_of_ne (by decide)]
    abel

theorem msegHeld_update (mseg : Band → FlagRing MsegEntry) (band : Band)
    (r : FlagRing MsegEntry) :
    msegHeld (Function.update mseg band r)
        + (((mseg band).contents eagleMsegEntries).map (·.bufId) : Multiset ℕ)
      = msegHeld mseg + ((r.contents eagleMsegEntries).map (·.bufId) : Multiset ℕ) := by
  unfold msegHeld
  cases band with
  | band0 =>
    rw [Function.update_self, Function.update_of_ne (by decide)]
    abel
  | band1 =>
    rw [Function.update_self, Function.update_of_ne (by decide)]
    abel

/-- An accepted enqueue adds its id to the queues. -/
theorem held_enqueue {bufId segLen wcid info dst pktLen : ℕ} {flags : BitVec 8}
    {origin : Option (ℕ × ℕ)} (h : Shape s) (hid : bufId < 2 ^ 16)
    (hput : eaglePktEnqueue s bufId segLen wcid info dst flags pktLen origin = some s') :
    pktHeld s'.txq + msegHeld s'.mseg = bufId ::ₘ (pktHeld s.txq + msegHeld s.mseg) := by
  rcases enqueue_cases hput with ⟨-, r, hr, rfl⟩ | ⟨-, r, hr, rfl⟩
  · have hset := pktHeld_update s.txq (queueBand dst) r
    rw [(h.queues.putTxq hid hr).2, List.map_append, ← Multiset.coe_add, List.map_singleton,
      Multiset.coe_singleton, add_comm (_ : Multiset ℕ) {bufId}, ← add_assoc] at hset
    rw [add_right_cancel hset, ← Multiset.singleton_add]
    abel
  · have hset := msegHeld_update s.mseg (queueBand dst) r
    rw [(h.queues.putMseg hid hr).2, List.map_append, ← Multiset.coe_add, List.map_singleton,
      Multiset.coe_singleton, add_comm (_ : Multiset ℕ) {bufId}, ← add_assoc] at hset
    rw [add_right_cancel hset, ← Multiset.singleton_add]
    abel

/-- A drained packet's id leaves the packet queues. -/
theorem pktHeld_pop {band : Band} {e : PktEntry} (h : Shape s)
    (hhead : (s.txq band).slot (s.txq band).ridx = some e) :
    e.bufId ::ₘ pktHeld (Function.update s.txq band ((s.txq band).pop eagleTxqEntries))
      = pktHeld s.txq := by
  have hset := pktHeld_update s.txq band ((s.txq band).pop eagleTxqEntries)
  rw [((h.queues.pktRing band).pop hhead).2, List.map_cons, ← Multiset.cons_coe, Multiset.add_cons,
    ← Multiset.cons_add] at hset
  exact add_right_cancel hset

/-- A drained segment's id leaves the multi-segment queues. -/
theorem msegHeld_pop {band : Band} {e : MsegEntry} (h : Shape s)
    (hhead : (s.mseg band).slot (s.mseg band).ridx = some e) :
    e.bufId ::ₘ msegHeld (Function.update s.mseg band ((s.mseg band).pop eagleMsegEntries))
      = msegHeld s.mseg := by
  have hset := msegHeld_update s.mseg band ((s.mseg band).pop eagleMsegEntries)
  rw [((h.queues.msegRing band).pop hhead).2, List.map_cons, ← Multiset.cons_coe, Multiset.add_cons,
    ← Multiset.cons_add] at hset
  exact add_right_cancel hset

/-! ## The chain's ids -/

theorem map_segBufid (c : RxChain) :
    (List.range c.segs.length).map c.segBufid = c.segs.map (·.bufId) := by
  apply List.ext_getElem
  · simp
  · intro i hi _
    have hlt : i < c.segs.length := by simpa using hi
    simp [RxChain.segBufid, hlt]

/-- The next segment is the first of those core 1 has not passed on. -/
theorem drop_segs {c : RxChain} {i : ℕ} (hi : i < c.segs.length) :
    (c.segs.map (·.bufId)).drop i = c.segBufid i :: (c.segs.map (·.bufId)).drop (i + 1) := by
  have hlt : i < (c.segs.map (·.bufId)).length := by simpa using hi
  rw [List.drop_eq_getElem_cons hlt]
  simp [RxChain.segBufid, hi]

theorem chainHeld_joins {c d : RxChain} (h : Joins c d) :
    chainHeld d .idle = chainHeld c .idle := by
  rcases h with ⟨-, rfl⟩ | ⟨hc, rfl⟩
  · rfl
  · simp [chainHeld, hc]

/-- A descriptor's id joins the chain or is in core 1's hands. -/
theorem held_handled {c c' : RxChain} {pc : Core1Pc} {id : ℕ} (h : ChainOk c .idle)
    (hc : Handled c id c' pc) :
    (chainHeld c' pc : Multiset ℕ) + core1Held c' pc = id ::ₘ (chainHeld c .idle : Multiset ℕ) := by
  have hpush : ∀ d len, Joins c d → d.abort = false →
      ((d.push id len).segs.map (·.bufId) : Multiset ℕ)
        = id ::ₘ (chainHeld c .idle : Multiset ℕ) := by
    intro d len hjoin habort
    rw [← chainHeld_joins hjoin]
    have hchain := (h.joins hjoin).2
    simp only [chainHeld, hchain, habort, and_self, if_true, Core1Pc.sent, List.drop_zero,
      RxChain.push, List.map_append, List.map_singleton]
    rw [← Multiset.coe_add, Multiset.coe_singleton, add_comm, Multiset.singleton_add]
  cases hc with
  | submit len hwhole => simp [chainHeld, core1Held, hwhole]
  | put len hwhole => simp [chainHeld, core1Held, hwhole]
  | endAbort habort => simp [chainHeld, core1Held, habort]
  | skip habort => simp [chainHeld, core1Held, habort]
  | collect d len hjoin habort hfew =>
    have hchain : (d.push id len).chaining = true := (h.joins hjoin).2
    have habort' : (d.push id len).abort = false := habort
    rw [← hpush d len hjoin habort]
    simp [chainHeld, core1Held, hchain, habort', Core1Pc.sent]
  | overflow d len hjoin habort hmany =>
    -- exactly as many segments as the arrays hold
    have hfew := (h.joins hjoin).1.collecting rfl (h.joins hjoin).2 habort
    have hlen : (d.push id len).segs.length = eagleMsegMax := by
      simp only [RxChain.push, List.length_append, List.length_singleton]
      omega
    have hall := map_segBufid (d.push id len)
    rw [hlen] at hall
    rw [← hpush d len hjoin habort, ← hall]
    simp [chainHeld, core1Held]
  | complete d len hjoin habort =>
    have hchain : (d.push id len).chaining = true := (h.joins hjoin).2
    have habort' : (d.push id len).abort = false := habort
    rw [← hpush d len hjoin habort]
    simp [chainHeld, core1Held, hchain, habort', Core1Pc.sent]

/-! ## The ledger -/

/-- All live ids. -/
def liveTotal (b : Build) (s : RxState) : Multiset ℕ :=
  (pktHeld s.txq + msegHeld s.mseg)
    + (chainHeld s.chain s.core1 + core1Held s.chain s.core1 : Multiset ℕ)
    + core3Held b s.core3 + ppeHeld s.ppe

/-- What was handed over is given back, given to TDMA or live. -/
def Balanced (b : Build) (s : RxState) : Prop :=
  s.handed = s.returned + s.tdma + liveTotal b s

/-- A frame that enters a packet queue has a length. -/
def PktLength (s : RxState) (dst segLen pktLen : ℕ) : Prop :=
  pktLen = segLen → (s.txq (queueBand dst)).slot (s.txq (queueBand dst)).widx = none →
    segLen ≠ 0

/-- No step puts a packet of length zero into a packet queue. -/
def QueuesLength (b : Build) (s : RxState) : RxAction → Prop
  | .put => ∀ id len, s.core1 = .put id len → PktLength s 1 len len
  | .emit => ∀ i kept, s.core1 = .emit i kept → i < s.chain.count →
      PktLength s 1 (u16 s.chain.seglen) (s.chain.segLen i)
  | .ppeEntry v _ hdr => v &&& ppeWifiBufFree b = 0 →
      PktLength s 0 (infoSegLen hdr) (infoSegLen hdr)
  | .eventPut => ∀ id len, s.core3 = .event id len → PktLength s 0 len len
  | _ => True

/-- Every packet queued has a length. -/
def Lengths (s : RxState) : Prop := ∀ band, ∀ e ∈ s.pkts band, e.segLen ≠ 0

theorem Lengths.congr (h : Lengths s) (htxq : s'.txq = s.txq) : Lengths s' := by
  unfold Lengths RxState.pkts
  rw [htxq]
  exact h

/-- The queues are well formed and the ledger balances. -/
structure Ledger (b : Build) (s : RxState) : Prop where
  shape : Shape s
  balance : Balanced b s

/-- What conservation rests on. -/
structure RxInv (b : Build) (s : RxState) : Prop where
  shape : Shape s
  lengths : Lengths s
  balance : Balanced b s

theorem RxInv.ledger (h : RxInv b s) : Ledger b s := ⟨h.shape, h.balance⟩

section enqueue

variable {bufId segLen wcid info dst pktLen : ℕ} {flags : BitVec 8} {origin : Option (ℕ × ℕ)}

theorem Lengths.enqueue (h : Lengths s) (hshape : Shape s) (hid : bufId < 2 ^ 16)
    (hlen : PktLength s dst segLen pktLen)
    (hput : eaglePktEnqueue s bufId segLen wcid info dst flags pktLen origin = some s') :
    Lengths s' := by
  rcases enqueue_cases hput with ⟨heq, r, hr, rfl⟩ | ⟨-, r, hr, rfl⟩
  · intro band e he
    by_cases hband : band = queueBand dst
    · have hcont := (hshape.queues.putTxq hid hr).2
      have hpkts : e ∈ r.contents eagleTxqEntries := by
        simpa [RxState.pkts, hband] using he
      rw [hcont, List.mem_append, List.mem_singleton] at hpkts
      rcases hpkts with hold | rfl
      · exact h _ e hold
      · refine hlen heq ?_
        by_contra hfull
        have hsome : ((s.txq (queueBand dst)).slot (s.txq (queueBand dst)).widx).isSome :=
          Option.isSome_iff_ne_none.mpr hfull
        simp [FlagRing.put, hsome] at hr
    · refine h band e ?_
      simpa [RxState.pkts, Function.update_of_ne hband] using he
  · exact h.congr rfl

end enqueue

/-! ## Steps -/

theorem balanced_rxd {dw1 dw2 : BitVec 32} {icv force : Bool} (h : Ledger b s)
    (hstep : rxd s dw1 dw2 icv force = some s') : Balanced b s' := by
  unfold rxd at hstep
  split at hstep
  · next hidle =>
    obtain rfl := Option.some.inj hstep
    have hchain := h.shape.chain
    have hbal := h.balance
    rw [hidle] at hchain
    have hheld := held_handled hchain (handled s.chain dw1 dw2 icv force)
    unfold Balanced liveTotal at hbal ⊢
    rw [hheld, hbal, hidle]
    simp only [core1Held, Multiset.coe_nil, add_zero, ← Multiset.singleton_add]
    abel
  · cases hstep

/-- TDMA takes the frame, or its id stays in core 1's hands. -/
theorem balanced_submit {ok : Bool} (h : Ledger b s) (hstep : rxSubmit s ok = some s') :
    Balanced b s' := by
  unfold rxSubmit at hstep
  split at hstep
  · next id len hpc =>
    obtain rfl := Option.some.inj hstep
    have hbal := h.balance
    unfold Balanced liveTotal at hbal ⊢
    rw [hpc] at hbal
    cases ok with
    | true =>
      simp only [if_true, hbal, chainHeld, core1Held, Core1Pc.sent, Multiset.coe_singleton,
        Multiset.coe_nil, ← Multiset.singleton_add]
      abel
    | false => exact hbal
  · cases hstep

theorem balanced_put (h : Ledger b s) (hstep : rxPut s = some s') : Balanced b s' := by
  unfold rxPut at hstep
  split at hstep
  · next id len hpc =>
    have hchain := h.shape.chain
    have hbal := h.balance
    rw [hpc] at hchain
    split at hstep
    · next s1 hput =>
      obtain rfl := Option.some.inj hstep
      have hheld := held_enqueue h.shape (hchain.whole id len rfl) hput
      rw [enqueue_frame hput] at hheld ⊢
      unfold Balanced liveTotal at hbal ⊢
      rw [hpc] at hbal
      simp only [hheld, hbal, chainHeld, core1Held, Core1Pc.sent, Multiset.coe_singleton,
        Multiset.coe_nil, ← Multiset.singleton_add]
      abel
    · obtain rfl := Option.some.inj hstep
      unfold Balanced liveTotal at hbal ⊢
      rw [hpc] at hbal
      exact hbal
  · cases hstep

theorem balanced_back (h : Ledger b s) (hstep : rxReturn s = some s') : Balanced b s' := by
  have hbal := h.balance
  unfold Balanced liveTotal at hbal
  unfold rxReturn at hstep
  split at hstep
  · next id hpc =>
    obtain rfl := Option.some.inj hstep
    rw [hpc] at hbal
    unfold Balanced liveTotal bufIdReturn
    simp only [hbal, chainHeld, core1Held, Core1Pc.sent, Multiset.coe_singleton,
      Multiset.coe_nil]
    abel
  · next id rest hpc =>
    obtain rfl := Option.some.inj hstep
    rw [hpc] at hbal
    unfold Balanced liveTotal bufIdReturn
    simp only [hbal, chainHeld, core1Held, Core1Pc.sent, ← Multiset.cons_coe,
      ← Multiset.singleton_add, Multiset.coe_nil]
    abel
  · next hpc =>
    obtain rfl := Option.some.inj hstep
    rw [hpc] at hbal
    exact hbal
  · next i hpc =>
    obtain rfl := Option.some.inj hstep
    rw [hpc] at hbal
    unfold Balanced liveTotal bufIdReturn
    simp only [hbal, chainHeld, core1Held, Core1Pc.sent, Multiset.coe_singleton,
      Multiset.coe_nil]
    abel
  · cases hstep

/-- The next segment goes to a queue or into core 1's hands. -/
theorem balanced_emit (h : Ledger b s) (hstep : rxEmit s = some s') : Balanced b s' := by
  have hchain := h.shape.chain
  have hbal := h.balance
  unfold Balanced liveTotal at hbal
  unfold rxEmit at hstep
  split at hstep
  · next i kept hpc =>
    rw [hpc] at hchain hbal
    obtain ⟨hchaining, habort, hlen, hsent⟩ := hchain.complete rfl
    have hcount := ChainOk.count_eq hlen
    dsimp only at hstep
    split at hstep
    · next hi =>
      rw [hcount] at hi
      -- the chain gives up its next segment
      have hnext : (chainHeld s.chain (.emit i kept) : Multiset ℕ)
          = s.chain.segBufid i ::ₘ (chainHeld s.chain (.emitDrop i) : Multiset ℕ) := by
        simp only [chainHeld, hchaining, habort, and_self, if_true, Core1Pc.sent, drop_segs hi,
          Multiset.cons_coe]
      rw [hnext] at hbal
      split at hstep
      · next s1 hput =>
        obtain rfl := Option.some.inj hstep
        have hheld := held_enqueue h.shape (RxChain.segBufid_lt hchain.ids i) hput
        rw [enqueue_frame hput] at hheld ⊢
        unfold Balanced liveTotal
        simp only [hheld, hbal, chainHeld, core1Held, Core1Pc.sent, Multiset.coe_nil,
          ← Multiset.singleton_add]
        abel
      · obtain rfl := Option.some.inj hstep
        unfold Balanced liveTotal
        simp only [hbal, core1Held, Multiset.coe_singleton, Multiset.coe_nil,
          ← Multiset.singleton_add]
        abel
    · next hi =>
      obtain rfl := Option.some.inj hstep
      rw [hcount] at hi
      have hdone : (s.chain.segs.map (·.bufId)).drop i = [] := by
        apply List.drop_eq_nil_of_le
        simpa using Nat.le_of_not_lt hi
      unfold Balanced liveTotal
      rw [hbal]
      simp [chainHeld, core1Held, Core1Pc.sent, hdone]
  · cases hstep

theorem balanced_ppeEntry {v info hdr : BitVec 32} (h : Ledger b s)
    (hstep : ppeEntry b s v info hdr = some s') : Balanced b s' := by
  have hbal := h.balance
  unfold Balanced liveTotal at hbal
  unfold ppeEntry at hstep
  split at hstep
  · next ids hpc =>
    rw [hpc] at hbal
    dsimp only at hstep
    split at hstep
    · split at hstep
      · obtain rfl := Option.some.inj hstep
        -- full or not, the batch holds the id
        have hheld : ppeHeld (if (ids ++ [(v &&& 0xFFFF).toNat]).length = 16
            then .full (ids ++ [(v &&& 0xFFFF).toNat]) else .loop (ids ++ [(v &&& 0xFFFF).toNat]))
            = ids ++ [(v &&& 0xFFFF).toNat] := by
          split_ifs <;> rfl
        unfold Balanced liveTotal
        rw [hheld]
        simp only [hbal, ppeHeld, ← Multiset.coe_add, Multiset.coe_singleton,
          ← Multiset.singleton_add]
        abel
      · obtain rfl := Option.some.inj hstep
        unfold Balanced liveTotal bufIdReturn
        simp only [hpc, hbal, Multiset.coe_singleton, ← Multiset.singleton_add]
        abel
    · have h0 : Shape { s with handed := (v &&& 0xFFFF).toNat ::ₘ s.handed } :=
        h.shape.congr rfl rfl h.shape.chain rfl
      split at hstep
      · next s1 hput =>
        obtain rfl := Option.some.inj hstep
        have hheld := held_enqueue h0 (ppeId_lt v) hput
        rw [enqueue_frame hput] at hheld ⊢
        unfold Balanced liveTotal
        simp only [hheld, hpc, hbal, ← Multiset.singleton_add]
        abel
      · obtain rfl := Option.some.inj hstep
        unfold Balanced liveTotal
        simp only [hbal, ppeHeld, ← Multiset.cons_coe, ← Multiset.singleton_add]
        abel
  · cases hstep

/-- The PPE's other steps give back ids from its hart's hands. -/
theorem balanced_ppe (h : Ledger b s)
    (hstep : ppeStart s = some s' ∨ ppeReturn s = some s' ∨ ppeEnd s = some s') :
    Balanced b s' := by
  have hbal := h.balance
  unfold Balanced liveTotal at hbal
  unfold ppeStart ppeReturn ppeEnd at hstep
  rcases hstep with hstep | hstep | hstep
  · split at hstep
    · next hpc =>
      obtain rfl := Option.some.inj hstep
      rw [hpc] at hbal
      exact hbal
    · cases hstep
  · split at hstep
    · next id ids hpc =>
      obtain rfl := Option.some.inj hstep
      rw [hpc] at hbal
      unfold Balanced liveTotal bufIdReturn
      simp only [hbal, ppeHeld, ← Multiset.cons_coe, Multiset.coe_nil, ← Multiset.singleton_add]
      abel
    · next ids hpc =>
      obtain rfl := Option.some.inj hstep
      rw [hpc] at hbal
      unfold Balanced liveTotal bufIdReturn
      simp only [hbal, ppeHeld, Multiset.coe_nil]
      abel
    · cases hstep
  · split at hstep
    · next ids hpc =>
      obtain rfl := Option.some.inj hstep
      rw [hpc] at hbal
      unfold Balanced liveTotal bufIdReturn
      simp only [hbal, ppeHeld, Multiset.coe_nil]
      abel
    · cases hstep

/-- A drained packet's id is in core 3's hands: the packet has a length,
    so the drain does not skip it. -/
theorem balanced_txqEntry {refused : Bool} (h : Ledger b s)
    (hlengths : ∀ band left ids e, s.core3 = .txq band left ids →
      (s.txq band).slot (s.txq band).ridx = some e → e.segLen ≠ 0)
    (hstep : txqEntry s refused = some s') : Balanced b s' := by
  have hbal := h.balance
  unfold Balanced liveTotal at hbal
  unfold txqEntry at hstep
  split at hstep
  · next band left ids hpc =>
    rw [hpc] at hbal
    split at hstep
    · obtain rfl := Option.some.inj hstep
      exact hbal
    · next e hhead =>
      have hmem : e ∈ s.pkts band := by
        rw [(h.shape.queues.popTxq hhead).2]
        exact List.mem_cons_self
      have hid := h.shape.queues.pktIds band e hmem
      have hlen := hlengths band left ids e hpc hhead
      have hsent : e.bufId < 2 ^ 31 ∧ e.segLen ≠ 0 :=
        ⟨hid.trans (Nat.pow_lt_pow_right (by decide) (by decide)), hlen⟩
      -- the id leaves the queue's share for core 3's
      rw [← pktHeld_pop h.shape hhead] at hbal
      have hword := u16_natCast_of_lt hid
      dsimp only at hstep
      rw [if_pos hsent, hword] at hstep
      split at hstep
      · obtain rfl := Option.some.inj hstep
        unfold Balanced liveTotal
        simp only [hbal, core3Held, ← Multiset.coe_add, Multiset.coe_singleton,
          ← Multiset.singleton_add]
        abel
      · obtain rfl := Option.some.inj hstep
        unfold Balanced liveTotal
        simp only [hbal, core3Held, ← Multiset.coe_add, Multiset.coe_singleton,
          ← Multiset.singleton_add]
        abel
  · cases hstep

theorem balanced_core3 (h : Ledger b s)
    (hstep : (∃ band, txqStart b s band = some s') ∨ txqReturn s = some s' ∨
      (∃ old dw1, eventStart s old dw1 = some s') ∨ eventReturn s = some s') : Balanced b s' := by
  have hbal := h.balance
  unfold Balanced liveTotal at hbal
  unfold txqStart txqReturn eventStart eventReturn at hstep
  rcases hstep with ⟨band, hstep⟩ | hstep | ⟨old, dw1, hstep⟩ | hstep
  · split at hstep
    · next hpc =>
      obtain rfl := Option.some.inj hstep
      rw [hpc] at hbal
      exact hbal
    · cases hstep
  · split at hstep
    · next ids hpc =>
      obtain rfl := Option.some.inj hstep
      rw [hpc] at hbal
      unfold Balanced liveTotal bufIdReturn
      simp only [hbal, core3Held, Multiset.coe_nil]
      abel
    · cases hstep
  · split at hstep
    · next hpc =>
      obtain rfl := Option.some.inj hstep
      rw [hpc] at hbal
      unfold Balanced liveTotal
      simp only [hbal, core3Held, Multiset.coe_singleton, Multiset.coe_nil,
        ← Multiset.singleton_add]
      abel
    · cases hstep
  · split at hstep
    · next id hpc =>
      obtain rfl := Option.some.inj hstep
      rw [hpc] at hbal
      unfold Balanced liveTotal bufIdReturn
      simp only [hbal, core3Held, Multiset.coe_nil]
      abel
    · cases hstep

theorem balanced_eventPut (h : Ledger b s) (hstep : eventPut s = some s') : Balanced b s' := by
  have hcore3 := h.shape.core3
  have hbal := h.balance
  unfold Balanced liveTotal at hbal
  unfold eventPut at hstep
  split at hstep
  · next id len hpc =>
    unfold Core3Ok at hcore3
    rw [hpc] at hcore3 hbal
    split at hstep
    · next s1 hput =>
      obtain rfl := Option.some.inj hstep
      have hheld := held_enqueue h.shape hcore3 hput
      rw [enqueue_frame hput] at hheld ⊢
      unfold Balanced liveTotal
      simp only [hheld, hbal, core3Held, Multiset.coe_singleton, Multiset.coe_nil,
        ← Multiset.singleton_add]
      abel
    · obtain rfl := Option.some.inj hstep
      exact hbal
  · cases hstep

theorem balanced_msegStart (h : Ledger b s) (hstep : msegStart s = some s') : Balanced b s' := by
  have hbal := h.balance
  unfold msegStart at hstep
  split at hstep
  · next hpc =>
    dsimp only at hstep
    split at hstep
    · obtain rfl := Option.some.inj hstep
      unfold Balanced liveTotal at hbal ⊢
      rw [hpc] at hbal
      exact hbal
    · obtain rfl := Option.some.inj hstep
      exact hbal
  · cases hstep

/-- Looking at the queue moves no id. -/
theorem balanced_msegLook (h : Ledger b s) (hstep : msegLook s = some s') : Balanced b s' := by
  have hbal := h.balance
  unfold Balanced liveTotal at hbal
  unfold msegLook at hstep
  split at hstep
  · next idx segs waited hpc =>
    rw [hpc] at hbal
    have hlook : ∀ pc, core3Held b pc = [] → Balanced b { s with core3 := pc } := by
      intro pc hnone
      unfold Balanced liveTotal
      rw [hnone]
      exact hbal
    split at hstep
    · obtain rfl := Option.some.inj hstep
      apply hlook
      split_ifs <;> rfl
    · dsimp only at hstep
      split at hstep
      · obtain rfl := Option.some.inj hstep
        exact hlook _ (by simp [core3Held])
      split at hstep
      · obtain rfl := Option.some.inj hstep
        exact hlook _ (by simp [core3Held])
      split at hstep
      · obtain rfl := Option.some.inj hstep
        exact hlook _ rfl
      · obtain rfl := Option.some.inj hstep
        exact hlook _ rfl
  · cases hstep

/-- A segment taken is in core 3's hands or given back at once; the batch
    goes back whole, host or not. -/
theorem balanced_msegTake {room : Bool} (h : Ledger b s)
    (hstep : msegTake b s room = some s') : Balanced b s' := by
  have hbal := h.balance
  unfold Balanced liveTotal at hbal
  unfold msegTake at hstep
  split at hstep
  · next ok left taken hpc =>
    rw [hpc] at hbal
    dsimp only at hstep
    split at hstep
    · next hleft =>
      obtain ⟨e, he⟩ := h.shape.take_head hpc hleft
      have hid : e.bufId < 2 ^ 16 := by
        apply h.shape.queues.msegIds .band1 e
        rw [(h.shape.queues.popMseg he).2]
        exact List.mem_cons_self
      -- the id leaves the queue's share; the batch goes back at its end, a
      -- single one at once
      rw [← msegHeld_pop h.shape he] at hbal
      rw [he, Option.getD_some, u16_natCast_of_lt hid] at hstep
      split at hstep
      · next hbatch =>
        obtain rfl := Option.some.inj hstep
        unfold Balanced liveTotal
        simp only [hbal, core3Held, hbatch, if_true, List.map_append, List.map_singleton,
          u16_natCast_of_lt hid, ← Multiset.coe_add, Multiset.coe_singleton,
          ← Multiset.singleton_add]
        abel
      · next hbatch =>
        obtain rfl := Option.some.inj hstep
        unfold Balanced liveTotal bufIdReturn
        simp only [hbal, core3Held, hbatch, Bool.false_eq_true, if_false, Multiset.coe_singleton,
          ← Multiset.singleton_add]
        abel
    · split at hstep
      · next hbatch =>
        obtain rfl := Option.some.inj hstep
        unfold Balanced liveTotal bufIdReturn
        simp only [hbal, core3Held, hbatch, if_true, Multiset.coe_nil]
        abel
      · next hbatch =>
        obtain rfl := Option.some.inj hstep
        unfold Balanced liveTotal
        simp only [hbal, core3Held, hbatch, Bool.false_eq_true, if_false]
  · cases hstep

/-- Every step but the drain of a packet keeps the balance. -/
theorem Ledger.step {a : RxAction} (h : Ledger b s) (ha : ∀ refused, a ≠ .txqEntry refused)
    (hstep : rxStep b s a = some s') : Balanced b s' := by
  cases a with
  | rxd dw1 dw2 icv force => exact balanced_rxd h hstep
  | submit ok => exact balanced_submit h hstep
  | put => exact balanced_put h hstep
  | back => exact balanced_back h hstep
  | emit => exact balanced_emit h hstep
  | ppeStart => exact balanced_ppe h (.inl hstep)
  | ppeEntry v info hdr => exact balanced_ppeEntry h hstep
  | ppeReturn => exact balanced_ppe h (.inr (.inl hstep))
  | ppeEnd => exact balanced_ppe h (.inr (.inr hstep))
  | txqStart band => exact balanced_core3 h (.inl ⟨band, hstep⟩)
  | txqEntry refused => exact absurd rfl (ha refused)
  | txqReturn => exact balanced_core3 (b := b) h (.inr (.inl hstep))
  | msegStart => exact balanced_msegStart h hstep
  | msegLook => exact balanced_msegLook h hstep
  | msegTake room => exact balanced_msegTake h hstep
  | eventStart old dw1 => exact balanced_core3 (b := b) h (.inr (.inr (.inl ⟨old, dw1, hstep⟩)))
  | eventPut => exact balanced_eventPut h hstep
  | eventReturn => exact balanced_core3 (b := b) h (.inr (.inr (.inr hstep)))

/-- The packet at the head of a queue is one of those queued. -/
theorem Lengths.head {band : Band} {e : PktEntry} (h : Lengths s) (hshape : Shape s)
    (hhead : (s.txq band).slot (s.txq band).ridx = some e) : e.segLen ≠ 0 := by
  refine h band e ?_
  rw [(hshape.queues.popTxq hhead).2]
  exact List.mem_cons_self

theorem balanced_step {a : RxAction} (h : RxInv b s) (hstep : rxStep b s a = some s') :
    Balanced b s' := by
  by_cases ha : ∃ refused, a = .txqEntry refused
  · obtain ⟨refused, rfl⟩ := ha
    exact balanced_txqEntry h.ledger (fun _ _ _ _ _ hhead => h.lengths.head h.shape hhead) hstep
  · exact h.ledger.step (fun refused heq => ha ⟨refused, heq⟩) hstep

/-! ### Lengths in the packet queues -/

/-- The steps that fill or drain a packet queue. -/
def RxAction.touchesTxq : RxAction → Bool
  | .put | .emit | .ppeEntry _ _ _ | .txqEntry _ | .eventPut => true
  | _ => false

/-- The other steps leave the packet queues alone. -/
theorem txq_frame {a : RxAction} (ha : a.touchesTxq = false) (hstep : rxStep b s a = some s') :
    s'.txq = s.txq := by
  cases a
  case put | emit | ppeEntry | txqEntry | eventPut => cases ha
  all_goals
    simp only [rxStep, rxd, rxSubmit, rxReturn, ppeStart, ppeReturn, ppeEnd, txqStart, txqReturn,
      msegStart, msegLook, msegTake, eventStart, eventReturn] at hstep
    split at hstep
  all_goals first
    | (obtain rfl := Option.some.inj hstep; rfl)
    | (obtain rfl := Option.some.inj hstep; split <;> rfl)
    | cases hstep
    | skip
  -- core 3's three steps on the multi-segment queue
  · split at hstep <;> obtain rfl := Option.some.inj hstep <;> rfl
  · split at hstep
    · obtain rfl := Option.some.inj hstep
      rfl
    · split_ifs at hstep <;> obtain rfl := Option.some.inj hstep <;> rfl
  · split_ifs at hstep <;> obtain rfl := Option.some.inj hstep <;> rfl

theorem lengths_put (h : RxInv b s) (hguard : QueuesLength b s .put)
    (hstep : rxPut s = some s') : Lengths s' := by
  unfold rxPut at hstep
  split at hstep
  · next id len hpc =>
    have hchain := h.shape.chain
    split at hstep
    · next s1 hput =>
      obtain rfl := Option.some.inj hstep
      have hid := hchain.whole id len hpc
      exact (h.lengths.enqueue h.shape hid (hguard id len hpc) hput).congr rfl
    · obtain rfl := Option.some.inj hstep
      exact h.lengths.congr rfl
  · cases hstep

theorem lengths_emit (h : RxInv b s) (hguard : QueuesLength b s .emit)
    (hstep : rxEmit s = some s') : Lengths s' := by
  unfold rxEmit at hstep
  split at hstep
  · next i kept hpc =>
    dsimp only at hstep
    split at hstep
    · next hi =>
      split at hstep
      · next s1 hput =>
        obtain rfl := Option.some.inj hstep
        have hid := RxChain.segBufid_lt h.shape.chain.ids i
        exact (h.lengths.enqueue h.shape hid (hguard i kept hpc hi) hput).congr rfl
      · obtain rfl := Option.some.inj hstep
        exact h.lengths.congr rfl
    · obtain rfl := Option.some.inj hstep
      exact h.lengths.congr rfl
  · cases hstep

theorem lengths_ppeEntry {v info hdr : BitVec 32} (h : RxInv b s)
    (hguard : QueuesLength b s (.ppeEntry v info hdr))
    (hstep : ppeEntry b s v info hdr = some s') : Lengths s' := by
  unfold ppeEntry at hstep
  split at hstep
  · dsimp only at hstep
    split at hstep
    · split at hstep
      · obtain rfl := Option.some.inj hstep
        exact h.lengths.congr rfl
      · obtain rfl := Option.some.inj hstep
        exact h.lengths.congr rfl
    · next hfree =>
      have h0 : Shape { s with handed := (v &&& 0xFFFF).toNat ::ₘ s.handed } :=
        h.shape.congr rfl rfl h.shape.chain rfl
      have h1 : Lengths { s with handed := (v &&& 0xFFFF).toNat ::ₘ s.handed } :=
        h.lengths.congr rfl
      split at hstep
      · next s1 hput =>
        obtain rfl := Option.some.inj hstep
        exact h1.enqueue h0 (ppeId_lt v) (hguard (not_not.mp hfree)) hput
      · obtain rfl := Option.some.inj hstep
        exact h.lengths.congr rfl
  · cases hstep

theorem lengths_eventPut (h : RxInv b s) (hguard : QueuesLength b s .eventPut)
    (hstep : eventPut s = some s') : Lengths s' := by
  have hcore3 := h.shape.core3
  unfold eventPut at hstep
  split at hstep
  · next id len hpc =>
    unfold Core3Ok at hcore3
    rw [hpc] at hcore3
    split at hstep
    · next s1 hput =>
      obtain rfl := Option.some.inj hstep
      exact (h.lengths.enqueue h.shape hcore3 (hguard id len hpc) hput).congr rfl
    · obtain rfl := Option.some.inj hstep
      exact h.lengths.congr rfl
  · cases hstep

/-- Draining leaves the other packets. -/
theorem lengths_txqEntry {refused : Bool} (h : RxInv b s)
    (hstep : txqEntry s refused = some s') : Lengths s' := by
  unfold txqEntry at hstep
  split at hstep
  · next band left ids hpc =>
    split at hstep
    · obtain rfl := Option.some.inj hstep
      exact h.lengths.congr rfl
    · next e hhead =>
      have hpop : Lengths { s with
          txq := Function.update s.txq band ((s.txq band).pop eagleTxqEntries) } := by
        have hcont := (h.shape.queues.popTxq hhead).2
        intro i d hd
        by_cases hi : i = band
        · subst hi
          refine h.lengths i d ?_
          rw [hcont]
          exact List.mem_cons_of_mem e (by simpa [RxState.pkts] using hd)
        · exact h.lengths i d (by simpa [RxState.pkts, Function.update_of_ne hi] using hd)
      dsimp only at hstep
      split at hstep
      · obtain rfl := Option.some.inj hstep
        exact hpop.congr rfl
      · obtain rfl := Option.some.inj hstep
        exact hpop.congr rfl
  · cases hstep

theorem lengths_step {a : RxAction} (h : RxInv b s) (hguard : QueuesLength b s a)
    (hstep : rxStep b s a = some s') : Lengths s' := by
  cases a
  case put => exact lengths_put h hguard hstep
  case emit => exact lengths_emit h hguard hstep
  case ppeEntry v info hdr => exact lengths_ppeEntry h hguard hstep
  case eventPut => exact lengths_eventPut h hguard hstep
  case txqEntry refused => exact lengths_txqEntry h hstep
  all_goals exact h.lengths.congr (txq_frame rfl hstep)

/-! ## Every run -/

theorem rxInv_init (b : Build) : RxInv b eagleQueueInit where
  shape := shape_init
  lengths := by
    intro band e he
    have hnil : eagleQueueInit.pkts band = [] := FlagRing.contents_empty (by decide)
    rw [hnil] at he
    cases he
  balance := by
    have hpkt : (FlagRing.empty : FlagRing PktEntry).contents eagleTxqEntries = [] :=
      FlagRing.contents_empty (by decide)
    have hmseg : (FlagRing.empty : FlagRing MsegEntry).contents eagleMsegEntries = [] :=
      FlagRing.contents_empty (by decide)
    simp [Balanced, liveTotal, eagleQueueInit, pktHeld, msegHeld, hpkt, hmseg, chainHeld,
      core1Held, core3Held, ppeHeld]

theorem rxInv_of_reachable (h : ((rxSystem b).guarded (QueuesLength b)).Reachable s) :
    RxInv b s := by
  refine h.invariant ?_ ?_
  · intro s hs
    obtain rfl : s = eagleQueueInit := hs
    exact rxInv_init b
  · intro s a s' hinv hstep
    exact ⟨shape_step hinv.shape hstep.2, lengths_step hinv hstep.1 hstep.2,
      balanced_step hinv hstep.2⟩

/-- Hand-overs and places agree, as a whole and id by id: an id handed
    over once more often than it was given back or given to TDMA is in
    one place, once; one that was given on as often as handed over is in
    none. -/
structure RxConserved (b : Build) (s : RxState) : Prop where
  ledger : s.handed = s.returned + s.tdma + ∑ p, live b s p
  held : ∀ id, s.handed.count id = s.returned.count id + s.tdma.count id + 1 →
    HeldOnce (live b s) id
  gone : ∀ id, s.handed.count id = s.returned.count id + s.tdma.count id →
    ∀ p, id ∉ live b s p
  notTwice : ∀ id, s.returned.count id + s.tdma.count id ≤ s.handed.count id

theorem sum_live (b : Build) (s : RxState) : ∑ p, live b s p = liveTotal b s := by
  rw [sum_places]
  simp only [live, liveTotal]
  abel

theorem Balanced.conserved (h : Balanced b s) : RxConserved b s := by
  have hledger : s.handed = s.returned + s.tdma + ∑ p, live b s p := by
    rw [sum_live]
    exact h
  have hcount : ∀ id, s.handed.count id
      = s.returned.count id + s.tdma.count id + (∑ p, live b s p).count id := by
    intro id
    rw [hledger, Multiset.count_add, Multiset.count_add]
  refine ⟨hledger, ?_, ?_, ?_⟩
  · intro id hid
    apply heldOnce_of_count
    have := hcount id
    omega
  · intro id hid p hmem
    have hzero : (∑ p, live b s p).count id = 0 := by
      have := hcount id
      omega
    exact not_mem_of_sum rfl (Multiset.count_eq_zero.mp hzero) p hmem
  · intro id
    have := hcount id
    omega

/-- In every run in which no packet of length zero enters a packet queue,
    each id handed over goes on to one place and is given back at most
    once. -/
theorem rxId_conserved (b : Build) (s : RxState)
    (h : ((rxSystem b).guarded (QueuesLength b)).Reachable s) : RxConserved b s :=
  (rxInv_of_reachable h).balance.conserved

/-- A frame of 128 bytes in buffer 5 waits in band 1's packet queue. -/
theorem rxId_conserved_queued : ∃ s, 5 ∈ s.handed ∧
    (s.pkts .band1).map (·.bufId) = [5] ∧ RxConserved ⟨.an7583, .mt7992⟩ s := by
  obtain ⟨s, hs, hheld, hpkts⟩ : ∃ s, ((rxSystem ⟨.an7583, .mt7992⟩).guarded
      (QueuesLength ⟨.an7583, .mt7992⟩)).Reachable s ∧ 5 ∈ s.handed ∧
      (s.pkts .band1).map (·.bufId) = [5] := by
    refine ⟨_, .step .put (.step (.rxd 0x40800000 0x00050000 false false) (.init rfl)
      ⟨trivial, rfl⟩) ⟨?_, rfl⟩, ?_, ?_⟩
    · intro id len hpc
      obtain ⟨rfl, rfl⟩ : 5 = id ∧ 128 = len := Core1Pc.put.inj hpc
      intro _ _
      decide
    · decide
    · decide +kernel
  exact ⟨s, hheld, hpkts, rxId_conserved _ s hs⟩

/-! ## A packet of length zero -/

/-- A whole frame of length zero in buffer 5 is queued for the host, and
    core 3 drains the queue. -/
def emptyFrameRun : List RxAction :=
  [.rxd 0x40000000 0x00050000 false false, .put, .txqStart .band1, .txqEntry false,
    .txqEntry false, .txqReturn]

/-- The id of the empty frame is in no place any more. -/
theorem emptyFrameRun_lost : (StepSystem.run (rxStep ⟨.an7583, .mt7992⟩) (fun _ _ => true)
    eagleQueueInit emptyFrameRun).map
    (fun s => (s.handed, s.returned, s.tdma, liveTotal ⟨.an7583, .mt7992⟩ s))
      = some ({5}, 0, 0, 0) := by
  decide +kernel

/-- Conservation fails in some run. -/
theorem rxId_lost : ¬∀ b s, (rxSystem b).Reachable s → RxConserved b s := by
  intro hall
  obtain ⟨s, hs, hend⟩ := Option.map_eq_some_iff.mp emptyFrameRun_lost
  have hreach : (rxSystem ⟨.an7583, .mt7992⟩).Reachable s :=
    .of_run (fun _ _ _ _ hstep => hstep) (.init rfl) hs
  have hledger := (hall _ s hreach).ledger
  rw [sum_live] at hledger
  simp only [Prod.mk.injEq] at hend
  obtain ⟨hhanded, hreturned, htdma, hlive⟩ := hend
  rw [hhanded, hreturned, htdma, hlive] at hledger
  simp at hledger

end ClankerNPU.EagleRx
