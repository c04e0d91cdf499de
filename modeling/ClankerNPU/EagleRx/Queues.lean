import ClankerNPU.EagleRx.Model
import Mathlib.Tactic.NormNum

/-! # The queues between the harts

    What every run keeps, whatever the descriptors: the four rings are
    well formed, their entries carry 16-bit ids, core 1's chain never
    overflows its arrays, and core 3 takes no entry it has not seen. -/

namespace ClankerNPU.EagleRx

open Circular

variable {b : Build} {s s' : RxState}

/-! ## Enqueueing -/

section enqueue

variable {bufId segLen wcid info dst pktLen : ℕ} {flags : BitVec 8} {origin : Option (ℕ × ℕ)}

/-- An accepted enqueue is a put into the queue the lengths name. -/
theorem enqueue_cases
    (h : eaglePktEnqueue s bufId segLen wcid info dst flags pktLen origin = some s') :
    (pktLen = segLen ∧ ∃ r, (s.txq (queueBand dst)).put eagleTxqEntries
        ⟨bufId, wcid, segLen, pktLen, info, flags ||| 1⟩ = some r ∧
        s' = { s with txq := Function.update s.txq (queueBand dst) r }) ∨
    (pktLen ≠ segLen ∧ ∃ r, (s.mseg (queueBand dst)).put eagleMsegEntries
        ⟨bufId, segLen, pktLen, flags ||| 1, origin⟩ = some r ∧
        s' = { s with mseg := Function.update s.mseg (queueBand dst) r }) := by
  unfold eaglePktEnqueue at h
  by_cases heq : pktLen = segLen
  · simp only [heq, if_true] at h
    obtain ⟨r, hr, rfl⟩ := Option.map_eq_some_iff.mp h
    exact .inl ⟨heq, r, heq ▸ hr, rfl⟩
  · simp only [heq, if_false] at h
    obtain ⟨r, hr, rfl⟩ := Option.map_eq_some_iff.mp h
    exact .inr ⟨heq, r, hr, rfl⟩

/-- An enqueue touches nothing but the queues. -/
theorem enqueue_frame
    (h : eaglePktEnqueue s bufId segLen wcid info dst flags pktLen origin = some s') :
    s' = { s with txq := s'.txq, mseg := s'.mseg } := by
  rcases enqueue_cases h with ⟨-, r, -, rfl⟩ | ⟨-, r, -, rfl⟩ <;> rfl

end enqueue

/-! ## Well-formed queues -/

/-- The rings are well formed and carry 16-bit ids. -/
structure QueuesOk (s : RxState) : Prop where
  pktRing : ∀ band, (s.txq band).Ok eagleTxqEntries
  pktIds : ∀ band, ∀ e ∈ s.pkts band, e.bufId < 2 ^ 16
  msegRing : ∀ band, (s.mseg band).Ok eagleMsegEntries
  msegIds : ∀ band, ∀ e ∈ s.msegs band, e.bufId < 2 ^ 16

theorem QueuesOk.setTxq {band : Band} {r : FlagRing PktEntry} (h : QueuesOk s)
    (hr : r.Ok eagleTxqEntries) (hids : ∀ e ∈ r.contents eagleTxqEntries, e.bufId < 2 ^ 16) :
    QueuesOk { s with txq := Function.update s.txq band r } := by
  refine ⟨?_, ?_, h.msegRing, h.msegIds⟩
  · intro i
    by_cases hi : i = band
    · subst hi
      simpa using hr
    · simpa [Function.update_of_ne hi] using h.pktRing i
  · intro i
    by_cases hi : i = band
    · subst hi
      simpa [RxState.pkts] using hids
    · simpa [RxState.pkts, Function.update_of_ne hi] using h.pktIds i

theorem QueuesOk.setMseg {band : Band} {r : FlagRing MsegEntry} (h : QueuesOk s)
    (hr : r.Ok eagleMsegEntries) (hids : ∀ e ∈ r.contents eagleMsegEntries, e.bufId < 2 ^ 16) :
    QueuesOk { s with mseg := Function.update s.mseg band r } := by
  refine ⟨h.pktRing, h.pktIds, ?_, ?_⟩
  · intro i
    by_cases hi : i = band
    · subst hi
      simpa using hr
    · simpa [Function.update_of_ne hi] using h.msegRing i
  · intro i
    by_cases hi : i = band
    · subst hi
      simpa [RxState.msegs] using hids
    · simpa [RxState.msegs, Function.update_of_ne hi] using h.msegIds i

/-- An accepted packet is the last of its queue. -/
theorem QueuesOk.putTxq {band : Band} {e : PktEntry} {r : FlagRing PktEntry} (h : QueuesOk s)
    (hid : e.bufId < 2 ^ 16) (hput : (s.txq band).put eagleTxqEntries e = some r) :
    QueuesOk { s with txq := Function.update s.txq band r } ∧
      r.contents eagleTxqEntries = s.pkts band ++ [e] := by
  obtain ⟨hr, hcont⟩ := (h.pktRing band).put hput
  refine ⟨h.setTxq hr ?_, hcont⟩
  intro d hd
  rw [hcont, List.mem_append, List.mem_singleton] at hd
  rcases hd with hd | rfl
  · exact h.pktIds band d hd
  · exact hid

/-- An accepted segment is the last of its queue. -/
theorem QueuesOk.putMseg {band : Band} {e : MsegEntry} {r : FlagRing MsegEntry}
    (h : QueuesOk s) (hid : e.bufId < 2 ^ 16)
    (hput : (s.mseg band).put eagleMsegEntries e = some r) :
    QueuesOk { s with mseg := Function.update s.mseg band r } ∧
      r.contents eagleMsegEntries = s.msegs band ++ [e] := by
  obtain ⟨hr, hcont⟩ := (h.msegRing band).put hput
  refine ⟨h.setMseg hr ?_, hcont⟩
  intro d hd
  rw [hcont, List.mem_append, List.mem_singleton] at hd
  rcases hd with hd | rfl
  · exact h.msegIds band d hd
  · exact hid

/-- A drained packet was the first of its queue. -/
theorem QueuesOk.popTxq {band : Band} {e : PktEntry} (h : QueuesOk s)
    (hhead : (s.txq band).slot (s.txq band).ridx = some e) :
    QueuesOk { s with txq := Function.update s.txq band ((s.txq band).pop eagleTxqEntries) } ∧
      s.pkts band = e :: ((s.txq band).pop eagleTxqEntries).contents eagleTxqEntries := by
  obtain ⟨hr, hcont⟩ := (h.pktRing band).pop hhead
  refine ⟨h.setTxq hr ?_, hcont⟩
  intro d hd
  apply h.pktIds band d
  show d ∈ (s.txq band).contents eagleTxqEntries
  rw [hcont]
  exact List.mem_cons_of_mem e hd

/-- A drained segment was the first of its queue. -/
theorem QueuesOk.popMseg {band : Band} {e : MsegEntry} (h : QueuesOk s)
    (hhead : (s.mseg band).slot (s.mseg band).ridx = some e) :
    QueuesOk { s with mseg := Function.update s.mseg band ((s.mseg band).pop eagleMsegEntries) } ∧
      s.msegs band = e :: ((s.mseg band).pop eagleMsegEntries).contents eagleMsegEntries := by
  obtain ⟨hr, hcont⟩ := (h.msegRing band).pop hhead
  refine ⟨h.setMseg hr ?_, hcont⟩
  intro d hd
  apply h.msegIds band d
  show d ∈ (s.mseg band).contents eagleMsegEntries
  rw [hcont]
  exact List.mem_cons_of_mem e hd

/-! ## Core 1's chain -/

/-- Core 1 is in the loop over a complete chain's segments. -/
def Core1Pc.emitting : Core1Pc → Bool
  | .emit _ _ | .emitDrop _ => true
  | _ => false

/-- Segments of the chain core 1 is past or has in hand. -/
def Core1Pc.sent : Core1Pc → ℕ
  | .emit i _ => i
  | .emitDrop i => i + 1
  | _ => 0

/-- The chain never overflows its arrays, and core 1 is past no segment
    it does not have. -/
structure ChainOk (c : RxChain) (pc : Core1Pc) : Prop where
  ids : ∀ g ∈ c.segs, g.bufId < 2 ^ 16
  collecting : pc.emitting = false → c.chaining = true → c.abort = false →
    c.segs.length < eagleMsegMax
  complete : pc.emitting = true → c.chaining = true ∧ c.abort = false ∧
    c.segs.length ≤ eagleMsegMax ∧ pc.sent ≤ c.segs.length
  whole : ∀ id len, pc = .put id len → id < 2 ^ 16

theorem ChainOk.count_eq {c : RxChain} (h : c.segs.length ≤ eagleMsegMax) :
    c.count = c.segs.length := by
  unfold RxChain.count
  rw [if_neg (by omega)]

/-- Outside the loop over the segments core 1 may stand anywhere. -/
theorem ChainOk.setPc {c : RxChain} {pc pc' : Core1Pc} (h : ChainOk c pc)
    (hpc : pc.emitting = false) (hpc' : pc'.emitting = false)
    (hput : ∀ id len, pc' ≠ .put id len) : ChainOk c pc' where
  ids := h.ids
  collecting := fun _ => h.collecting hpc
  complete := by simp [hpc']
  whole := by
    intro id len heq
    exact absurd heq (hput id len)

theorem rxdBufId_lt (dw2 : BitVec 32) : rxdBufId dw2 < 2 ^ 16 := by
  unfold rxdBufId
  rw [BitVec.toNat_ushiftRight, Nat.shiftRight_eq_div_pow]
  have := dw2.isLt
  omega

/-- The chain a descriptor's segment joins: the one under way or a new
    one. -/
def Joins (c d : RxChain) : Prop :=
  (c.chaining = true ∧ d = c) ∨ (c.chaining = false ∧ d = ⟨true, false, [], 0⟩)

/-- The chain with one more segment. -/
def RxChain.push (d : RxChain) (id len : ℕ) : RxChain :=
  { d with segs := d.segs ++ [⟨id, len⟩], seglen := u32 (d.seglen + len) }

/-- All that one descriptor with buffer `id` can do. -/
inductive Handled (c : RxChain) (id : ℕ) : RxChain → Core1Pc → Prop where
  | submit (len : ℕ) : c.chaining = false → Handled c id c (.submit id len)
  | put (len : ℕ) : c.chaining = false → Handled c id c (.put id len)
  | endAbort : c.abort = true →
      Handled c id { c with chaining := false, abort := false } (.drop id)
  | skip : c.abort = true → Handled c id c (.drop id)
  | collect (d : RxChain) (len : ℕ) : Joins c d → d.abort = false →
      d.segs.length + 1 < eagleMsegMax → Handled c id (d.push id len) .idle
  | overflow (d : RxChain) (len : ℕ) : Joins c d → d.abort = false →
      eagleMsegMax ≤ d.segs.length + 1 →
      Handled c id { d.push id len with abort := true }
        (.abort ((List.range eagleMsegMax).map (d.push id len).segBufid))
  | complete (d : RxChain) (len : ℕ) : Joins c d → d.abort = false →
      Handled c id (d.push id len) (.emit 0 true)

theorem rxdWhole_cases (dw1 dw2 : BitVec 32) (icv force : Bool) :
    (∃ len, rxdWhole dw1 dw2 icv force = .submit (rxdBufId dw2) len) ∨
      ∃ len, rxdWhole dw1 dw2 icv force = .put (rxdBufId dw2) len := by
  unfold rxdWhole
  dsimp only
  split_ifs
  all_goals first
    | exact .inl ⟨_, rfl⟩
    | exact .inr ⟨_, rfl⟩

theorem handled_chained (c : RxChain) (dw1 dw2 : BitVec 32) :
    Handled c (rxdBufId dw2) (rxdChained c dw1 dw2).1 (rxdChained c dw1 dw2).2 := by
  have hjoin : Joins c (if c.chaining then c else ⟨true, false, [], 0⟩) := by
    by_cases hc : c.chaining = true
    · exact .inl ⟨hc, by rw [if_pos hc]⟩
    · exact .inr ⟨by simpa using hc, by rw [if_neg hc]⟩
  unfold rxdChained
  dsimp only
  by_cases habort : (if c.chaining then c else ⟨true, false, [], 0⟩).abort = true
  · rw [if_pos habort]
    -- a new chain is not aborted
    rcases hjoin with ⟨hc, hd⟩ | ⟨hc, hd⟩
    · rw [hd] at habort ⊢
      exact .skip habort
    · rw [hd] at habort
      cases habort
  · rw [if_neg habort]
    have habort : (if c.chaining then c else ⟨true, false, [], 0⟩).abort = false := by
      simpa using habort
    generalize (if c.chaining then c else ⟨true, false, [], 0⟩) = d at hjoin habort ⊢
    by_cases hmore : rxdInfo dw1 dw2 &&& 1 ≠ 0
    · rw [if_pos hmore]
      have hmax : eagleMsegMax = 7 := rfl
      have hlen : (d.segs ++ [(⟨rxdBufId dw2, infoSegLen (rxdInfo dw1 dw2)⟩ : Seg)]).length
          = d.segs.length + 1 := by simp
      rw [hlen]
      by_cases hmany : d.segs.length + 1 > eagleMsegMax - 1
      · rw [if_pos hmany]
        exact .overflow d _ hjoin habort (by omega)
      · rw [if_neg hmany]
        exact .collect d _ hjoin habort (by omega)
    · rw [if_neg hmore]
      exact .complete d _ hjoin habort

theorem handled (c : RxChain) (dw1 dw2 : BitVec 32) (icv force : Bool) :
    Handled c (rxdBufId dw2) (eagleRxdmadHandle c dw1 dw2 icv force).1
      (eagleRxdmadHandle c dw1 dw2 icv force).2 := by
  unfold eagleRxdmadHandle
  dsimp only
  by_cases hwhole : ¬rxdInfo dw1 dw2 &&& 1 ≠ 0 ∧ c.chaining = false
  · rw [if_pos hwhole]
    rcases rxdWhole_cases dw1 dw2 icv force with ⟨len, hlen⟩ | ⟨len, hlen⟩
    · rw [hlen]
      exact .submit len hwhole.2
    · rw [hlen]
      exact .put len hwhole.2
  · rw [if_neg hwhole]
    by_cases habort : ¬rxdInfo dw1 dw2 &&& 1 ≠ 0 ∧ c.abort = true
    · rw [if_pos habort]
      exact .endAbort habort.2
    · rw [if_neg habort]
      exact handled_chained c dw1 dw2

theorem ChainOk.joins {c d : RxChain} (h : ChainOk c .idle) (hjoin : Joins c d) :
    ChainOk d .idle ∧ d.chaining = true := by
  rcases hjoin with ⟨hc, rfl⟩ | ⟨-, rfl⟩
  · exact ⟨h, hc⟩
  · refine ⟨⟨?_, ?_, ?_, ?_⟩, rfl⟩
    · intro g hg
      cases hg
    · intro _ _ _
      exact Nat.zero_lt_succ 6
    · intro hemit
      cases hemit
    · intro id len hput
      cases hput

/-- A descriptor leaves the chain within its bounds. -/
theorem ChainOk.handled {c c' : RxChain} {pc : Core1Pc} {id : ℕ} (h : ChainOk c .idle)
    (hid : id < 2 ^ 16) (hc : Handled c id c' pc) : ChainOk c' pc := by
  have hpush : ∀ d len, Joins c d → ∀ g ∈ (d.push id len).segs, g.bufId < 2 ^ 16 := by
    intro d len hjoin g hg
    rcases List.mem_append.mp hg with hg | hg
    · exact (h.joins hjoin).1.ids g hg
    · rw [List.mem_singleton.mp hg]
      exact hid
  have hlen : ∀ (d : RxChain) len, (d.push id len).segs.length = d.segs.length + 1 := by
    intro d len
    simp [RxChain.push]
  cases hc with
  | submit len hwhole => exact h.setPc rfl rfl (by simp)
  | put len hwhole =>
    refine ⟨h.ids, fun _ => h.collecting rfl, by simp [Core1Pc.emitting], ?_⟩
    intro id' len' heq
    cases heq
    exact hid
  | endAbort habort =>
    exact ⟨h.ids, by simp, by simp [Core1Pc.emitting], by simp⟩
  | skip habort => exact h.setPc rfl rfl (by simp)
  | collect d len hjoin habort hfew =>
    refine ⟨hpush d len hjoin, fun _ _ _ => ?_, by simp [Core1Pc.emitting], by simp⟩
    rw [hlen]
    exact hfew
  | overflow d len hjoin habort hmany =>
    exact ⟨hpush d len hjoin, by simp, by simp [Core1Pc.emitting], by simp⟩
  | complete d len hjoin habort =>
    obtain ⟨hd, hchain⟩ := h.joins hjoin
    refine ⟨hpush d len hjoin, by simp [Core1Pc.emitting],
      fun _ => ⟨hchain, habort, ?_, Nat.zero_le _⟩, by simp⟩
    rw [hlen]
    exact hd.collecting rfl hchain habort

/-! ## Core 3's collected frame -/

/-- What lets a collected batch go to the host: its last entry is marked
    last, and its count and number are the batch's length. -/
def Complete (batch : List MsegEntry) : Prop :=
  ∃ e, batch.getLast? = some e ∧ flagLast e.flags = true ∧
    flagCount e.flags = batch.length ∧ flagIdx e.flags = batch.length

/-- Core 3 takes only entries it has seen, and the ones it lets go to the
    host are complete. -/
def Core3Ok (s : RxState) : Prop :=
  match s.core3 with
  | .mseg idx segs _ =>
    idx = ((s.mseg .band1).ridx + segs) % eagleMsegEntries ∧
      segs ≤ (s.msegs .band1).length ∧ segs < 8
  | .msegTake ok left taken =>
    left ≤ (s.msegs .band1).length ∧
      (ok = true → Complete (taken ++ (s.msegs .band1).take left))
  | .event id _ => id < 2 ^ 16
  | _ => True

/-- The entries up to one that closes them. -/
theorem complete_take {q : List MsegEntry} {e : MsegEntry} {segs : ℕ} (he : q[segs]? = some e)
    (hlast : flagLast e.flags = true) (hcount : flagCount e.flags = segs + 1)
    (hidx : flagIdx e.flags = segs + 1) : Complete (q.take (segs + 1)) := by
  have hlt := (List.getElem?_eq_some_iff.mp he).1
  have hlen : (q.take (segs + 1)).length = segs + 1 := by
    rw [List.length_take]
    omega
  refine ⟨e, ?_, hlast, hcount.trans hlen.symm, hidx.trans hlen.symm⟩
  rw [List.getLast?_eq_getElem?, hlen, Nat.add_sub_cancel, List.getElem?_take, if_pos (by omega)]
  exact he

/-- What every run keeps. -/
structure Shape (s : RxState) : Prop where
  queues : QueuesOk s
  chain : ChainOk s.chain s.core1
  core3 : Core3Ok s

/-- More entries behind the ones core 3 has seen do not matter to it. -/
theorem Core3Ok.append {l : List MsegEntry} (h : Core3Ok s) (hcore3 : s'.core3 = s.core3)
    (hridx : (s'.mseg .band1).ridx = (s.mseg .band1).ridx)
    (hmsegs : s'.msegs .band1 = s.msegs .band1 ++ l) : Core3Ok s' := by
  unfold Core3Ok at h ⊢
  rw [hcore3]
  cases hpc : s.core3 with
  | mseg idx segs waited =>
    rw [hpc] at h
    obtain ⟨hidx, hsegs, hlt⟩ := h
    refine ⟨by rw [hridx]; exact hidx, ?_, hlt⟩
    rw [hmsegs, List.length_append]
    omega
  | msegTake ok left taken =>
    rw [hpc] at h
    obtain ⟨hleft, hok⟩ := h
    refine ⟨?_, fun ht => ?_⟩
    · rw [hmsegs, List.length_append]
      omega
    · rw [hmsegs, List.take_append_of_le_length hleft]
      exact hok ht
  | event id len =>
    rw [hpc] at h
    exact h
  | _ => trivial

theorem QueuesOk.congr (h : QueuesOk s) (htxq : s'.txq = s.txq) (hmseg : s'.mseg = s.mseg) :
    QueuesOk s' := by
  obtain ⟨hpr, hpi, hmr, hmi⟩ := h
  refine ⟨htxq ▸ hpr, ?_, hmseg ▸ hmr, ?_⟩
  · unfold RxState.pkts
    exact htxq ▸ hpi
  · unfold RxState.msegs
    exact hmseg ▸ hmi

/-- A step that leaves the queues alone. -/
theorem Shape.congr (h : Shape s) (htxq : s'.txq = s.txq) (hmseg : s'.mseg = s.mseg)
    (hchain : ChainOk s'.chain s'.core1) (hcore3 : s'.core3 = s.core3) : Shape s' := by
  refine ⟨h.queues.congr htxq hmseg, hchain, ?_⟩
  refine Core3Ok.append (l := []) h.core3 hcore3 (by rw [hmseg]) ?_
  unfold RxState.msegs
  rw [hmseg, List.append_nil]

/-- Core 3 moves without touching the queues. -/
theorem Shape.setCore3 (h : Shape s) (htxq : s'.txq = s.txq) (hmseg : s'.mseg = s.mseg)
    (hchain : s'.chain = s.chain) (hcore1 : s'.core1 = s.core1) (hcore3 : Core3Ok s') :
    Shape s' :=
  ⟨h.queues.congr htxq hmseg, by rw [hchain, hcore1]; exact h.chain, hcore3⟩

/-- An enqueue of a 16-bit id, accepted or not, keeps the shape. -/
theorem Shape.enqueue {bufId segLen wcid info dst pktLen : ℕ} {flags : BitVec 8}
    {origin : Option (ℕ × ℕ)} (h : Shape s) (hid : bufId < 2 ^ 16)
    (hput : eaglePktEnqueue s bufId segLen wcid info dst flags pktLen origin = some s') :
    Shape s' := by
  rcases enqueue_cases hput with ⟨-, r, hr, rfl⟩ | ⟨-, r, hr, rfl⟩
  · have hqueues := (h.queues.putTxq hid hr).1
    refine ⟨hqueues, h.chain, ?_⟩
    exact Core3Ok.append (l := []) h.core3 rfl rfl (by simp [RxState.msegs])
  · obtain ⟨hqueues, hcont⟩ := h.queues.putMseg hid hr
    refine ⟨hqueues, h.chain, ?_⟩
    by_cases hband : queueBand dst = .band1
    · rw [hband] at hcont hr ⊢
      refine Core3Ok.append (l := [⟨bufId, segLen, pktLen, flags ||| 1, origin⟩])
        h.core3 rfl ?_ ?_
      · simpa using FlagRing.put_ridx hr
      · simpa [RxState.msegs] using hcont
    · refine Core3Ok.append (l := []) h.core3 rfl ?_ ?_
      · simp [Function.update_of_ne (Ne.symm hband)]
      · simp [RxState.msegs, Function.update_of_ne (Ne.symm hband)]

/-! ## Steps -/

theorem shape_init : Shape eagleQueueInit where
  queues := by
    refine ⟨fun _ => FlagRing.ok_empty (by decide), ?_,
      fun _ => FlagRing.ok_empty (by decide), ?_⟩
    · intro band e he
      have hnil : eagleQueueInit.pkts band = [] := FlagRing.contents_empty (by decide)
      rw [hnil] at he
      cases he
    · intro band e he
      have hnil : eagleQueueInit.msegs band = [] := FlagRing.contents_empty (by decide)
      rw [hnil] at he
      cases he
  chain := ⟨by simp [eagleQueueInit], by simp [eagleQueueInit], by simp [eagleQueueInit,
    Core1Pc.emitting], by simp [eagleQueueInit]⟩
  core3 := trivial

theorem shape_rxd {dw1 dw2 : BitVec 32} {icv force : Bool} (h : Shape s)
    (hstep : rxd s dw1 dw2 icv force = some s') : Shape s' := by
  unfold rxd at hstep
  split at hstep
  · next hidle =>
    obtain rfl := Option.some.inj hstep
    have hchain := h.chain
    rw [hidle] at hchain
    exact h.congr rfl rfl (hchain.handled (rxdBufId_lt dw2) (handled _ _ _ _ _)) rfl
  · cases hstep

theorem shape_submit {ok : Bool} (h : Shape s) (hstep : rxSubmit s ok = some s') : Shape s' := by
  unfold rxSubmit at hstep
  split at hstep
  · next hpc =>
    have hchain := h.chain
    rw [hpc] at hchain
    obtain rfl := Option.some.inj hstep
    cases ok with
    | true => exact h.congr rfl rfl (hchain.setPc rfl rfl (by simp)) rfl
    | false => exact h.congr rfl rfl (hchain.setPc rfl rfl (by simp)) rfl
  · cases hstep

theorem shape_put (h : Shape s) (hstep : rxPut s = some s') : Shape s' := by
  unfold rxPut at hstep
  split at hstep
  · next id len hpc =>
    have hchain := h.chain
    rw [hpc] at hchain
    have hidle : ChainOk s.chain .idle := hchain.setPc rfl rfl (by simp)
    split at hstep
    · next s1 hput =>
      obtain rfl := Option.some.inj hstep
      have h1 := h.enqueue (hchain.whole id len rfl) hput
      rw [enqueue_frame hput] at h1 ⊢
      exact h1.congr rfl rfl hidle rfl
    · obtain rfl := Option.some.inj hstep
      exact h.congr rfl rfl (hidle.setPc rfl rfl (by simp)) rfl
  · cases hstep

theorem shape_back (h : Shape s) (hstep : rxReturn s = some s') : Shape s' := by
  have hchain := h.chain
  unfold rxReturn at hstep
  split at hstep
  · next id hpc =>
    rw [hpc] at hchain
    obtain rfl := Option.some.inj hstep
    exact h.congr rfl rfl (hchain.setPc rfl rfl (by simp)) rfl
  · next id rest hpc =>
    rw [hpc] at hchain
    obtain rfl := Option.some.inj hstep
    exact h.congr rfl rfl (hchain.setPc rfl rfl (by simp)) rfl
  · next hpc =>
    rw [hpc] at hchain
    obtain rfl := Option.some.inj hstep
    exact h.congr rfl rfl (hchain.setPc rfl rfl (by simp)) rfl
  · next i hpc =>
    rw [hpc] at hchain
    obtain rfl := Option.some.inj hstep
    refine h.congr rfl rfl ⟨hchain.ids, by simp [Core1Pc.emitting], ?_, by simp⟩ rfl
    exact fun _ => hchain.complete rfl
  · cases hstep

theorem RxChain.segBufid_lt {c : RxChain} (h : ∀ g ∈ c.segs, g.bufId < 2 ^ 16) (i : ℕ) :
    c.segBufid i < 2 ^ 16 := by
  unfold RxChain.segBufid
  cases hi : c.segs[i]? with
  | none => exact Nat.two_pow_pos 16
  | some g => exact h g (List.mem_of_getElem? hi)

theorem shape_emit (h : Shape s) (hstep : rxEmit s = some s') : Shape s' := by
  have hchain := h.chain
  unfold rxEmit at hstep
  split at hstep
  · next i kept hpc =>
    rw [hpc] at hchain
    obtain ⟨hchaining, habort, hlen, hsent⟩ := hchain.complete rfl
    have hcount := ChainOk.count_eq hlen
    dsimp only at hstep
    split at hstep
    · next hi =>
      rw [hcount] at hi
      split at hstep
      · next s1 hput =>
        obtain rfl := Option.some.inj hstep
        have h1 := h.enqueue (RxChain.segBufid_lt hchain.ids i) hput
        rw [enqueue_frame hput] at h1 ⊢
        refine h1.congr rfl rfl ⟨hchain.ids, by simp [Core1Pc.emitting], ?_, by simp⟩ rfl
        exact fun _ => ⟨hchaining, habort, hlen, hi⟩
      · obtain rfl := Option.some.inj hstep
        refine h.congr rfl rfl ⟨hchain.ids, by simp [Core1Pc.emitting], ?_, by simp⟩ rfl
        exact fun _ => ⟨hchaining, habort, hlen, hi⟩
    · obtain rfl := Option.some.inj hstep
      exact h.congr rfl rfl ⟨hchain.ids, by simp, by simp [Core1Pc.emitting], by simp⟩ rfl
  · cases hstep

theorem ppeId_lt (v : BitVec 32) : (v &&& 0xFFFF).toNat < 2 ^ 16 := by
  have hle : (v &&& 0xFFFF).toNat ≤ (0xFFFF : BitVec 32).toNat := by
    rw [BitVec.toNat_and]
    exact Nat.and_le_right
  have hmask : (0xFFFF : BitVec 32).toNat < 2 ^ 16 := by decide
  omega

theorem shape_ppeEntry {v info hdr : BitVec 32} (h : Shape s)
    (hstep : ppeEntry b s v info hdr = some s') : Shape s' := by
  unfold ppeEntry at hstep
  split at hstep
  · have hid := ppeId_lt v
    dsimp only at hstep
    split at hstep
    · split at hstep
      · obtain rfl := Option.some.inj hstep
        exact h.congr rfl rfl h.chain rfl
      · obtain rfl := Option.some.inj hstep
        exact h.congr rfl rfl h.chain rfl
    · have h0 : Shape { s with handed := (v &&& 0xFFFF).toNat ::ₘ s.handed } :=
        h.congr rfl rfl h.chain rfl
      split at hstep
      · next s1 hput =>
        obtain rfl := Option.some.inj hstep
        exact h0.enqueue hid hput
      · obtain rfl := Option.some.inj hstep
        exact h.congr rfl rfl h.chain rfl
  · cases hstep

/-- The PPE's other steps touch neither the queues nor the cores. -/
theorem shape_ppe (h : Shape s)
    (hstep : ppeStart s = some s' ∨ ppeReturn s = some s' ∨ ppeEnd s = some s') : Shape s' := by
  unfold ppeStart ppeReturn ppeEnd at hstep
  rcases hstep with hstep | hstep | hstep <;> split at hstep
  all_goals first
    | (obtain rfl := Option.some.inj hstep; exact h.congr rfl rfl h.chain rfl)
    | cases hstep

theorem shape_txqEntry {refused : Bool} (h : Shape s) (hstep : txqEntry s refused = some s') :
    Shape s' := by
  unfold txqEntry at hstep
  split at hstep
  · next band left ids hpc =>
    split at hstep
    · obtain rfl := Option.some.inj hstep
      exact h.setCore3 rfl rfl rfl rfl trivial
    · next e hhead =>
      have hqueues := (h.queues.popTxq hhead).1
      dsimp only at hstep
      split at hstep
      · obtain rfl := Option.some.inj hstep
        exact ⟨hqueues.congr rfl rfl, h.chain, trivial⟩
      · obtain rfl := Option.some.inj hstep
        exact ⟨hqueues.congr rfl rfl, h.chain, trivial⟩
  · cases hstep

/-- The other steps of core 3 that end outside the collecting loop. -/
theorem shape_core3 (h : Shape s)
    (hstep : (∃ band, txqStart b s band = some s') ∨ txqReturn s = some s' ∨
      (∃ old dw1, eventStart s old dw1 = some s') ∨ eventReturn s = some s') : Shape s' := by
  unfold txqStart txqReturn eventStart eventReturn at hstep
  rcases hstep with ⟨band, hstep⟩ | hstep | ⟨old, dw1, hstep⟩ | hstep <;> split at hstep
  all_goals first
    | (obtain rfl := Option.some.inj hstep; exact h.setCore3 rfl rfl rfl rfl trivial)
    | (obtain rfl := Option.some.inj hstep; exact h.setCore3 rfl rfl rfl rfl old.isLt)
    | cases hstep

theorem shape_eventPut (h : Shape s) (hstep : eventPut s = some s') : Shape s' := by
  have hcore3 := h.core3
  unfold eventPut at hstep
  split at hstep
  · next id len hpc =>
    unfold Core3Ok at hcore3
    rw [hpc] at hcore3
    split at hstep
    · next s1 hput =>
      obtain rfl := Option.some.inj hstep
      exact (h.enqueue hcore3 hput).setCore3 rfl rfl rfl rfl trivial
    · obtain rfl := Option.some.inj hstep
      exact h.setCore3 rfl rfl rfl rfl trivial
  · cases hstep

theorem shape_msegStart (h : Shape s) (hstep : msegStart s = some s') : Shape s' := by
  unfold msegStart at hstep
  split at hstep
  · dsimp only at hstep
    split at hstep
    · obtain rfl := Option.some.inj hstep
      have hlt : (s.mseg .band1).ridx < eagleMsegEntries :=
        FlagRing.Holds.ridx_lt (h.queues.msegRing .band1)
      refine h.setCore3 rfl rfl rfl rfl ⟨?_, Nat.zero_le _, by omega⟩
      exact (Nat.mod_eq_of_lt hlt).symm
    · obtain rfl := Option.some.inj hstep
      exact h
  · cases hstep

theorem flagCount_lt (flags : BitVec 8) : flagCount flags < 8 := by
  unfold flagCount
  rw [BitVec.toNat_ushiftRight, Nat.shiftRight_eq_div_pow]
  have := flags.isLt
  omega

theorem shape_msegLook (h : Shape s) (hstep : msegLook s = some s') : Shape s' := by
  have hcore3 := h.core3
  unfold msegLook at hstep
  split at hstep
  · next idx segs waited hpc =>
    unfold Core3Ok at hcore3
    rw [hpc] at hcore3
    obtain ⟨hidx, hsegs, hlt⟩ := hcore3
    have hentries : eagleMsegEntries = 128 := rfl
    split at hstep
    · obtain rfl := Option.some.inj hstep
      refine h.setCore3 rfl rfl rfl rfl ?_
      unfold Core3Ok
      dsimp only
      split_ifs
      · trivial
      · exact ⟨hidx, hsegs, hlt⟩
    · next e hslot =>
      -- the entry looked at is the next one of the queue
      rw [hidx, (h.queues.msegRing .band1).slot_eq (by omega)] at hslot
      have hseen : segs < (s.msegs .band1).length :=
        (List.getElem?_eq_some_iff.mp hslot).1
      have hcount := flagCount_lt e.flags
      dsimp only at hstep
      split at hstep
      · next hlast =>
        obtain rfl := Option.some.inj hstep
        refine h.setCore3 rfl rfl rfl rfl ⟨hseen, fun hok => ?_⟩
        have hok := of_decide_eq_true hok
        exact complete_take hslot hlast hok.1 hok.2
      split at hstep
      · obtain rfl := Option.some.inj hstep
        exact h.setCore3 rfl rfl rfl rfl ⟨hseen, by simp⟩
      split at hstep
      · obtain rfl := Option.some.inj hstep
        exact h.setCore3 rfl rfl rfl rfl trivial
      · obtain rfl := Option.some.inj hstep
        refine h.setCore3 rfl rfl rfl rfl ⟨?_, hseen, by omega⟩
        show next (eagleMsegEntries - 1) idx = _
        rw [hidx, next_pred_eq_mod (Nat.mod_lt _ (by omega)), mod_add_mod_eq]
  · cases hstep

/-- Core 3 takes the first entry of the queue: it has seen it. -/
theorem Shape.take_head {ok : Bool} {left : ℕ} {taken : List MsegEntry} (h : Shape s)
    (hpc : s.core3 = .msegTake ok left taken) (hleft : left ≠ 0) :
    ∃ e, (s.mseg .band1).slot (s.mseg .band1).ridx = some e := by
  have hcore3 := h.core3
  unfold Core3Ok at hcore3
  rw [hpc] at hcore3
  rw [FlagRing.Holds.head (h.queues.msegRing .band1)]
  have hne : (s.msegs .band1) ≠ [] := by
    intro hnil
    have hle := hcore3.1
    rw [hnil] at hle
    exact hleft (Nat.le_zero.mp hle)
  exact ⟨_, List.head?_eq_some_head hne⟩

theorem core3Ok_take {ok : Bool} {left : ℕ} {taken q : List MsegEntry}
    (hpc : s.core3 = .msegTake ok left taken) (hq : s.msegs .band1 = q) (hleft : left ≤ q.length)
    (hok : ok = true → Complete (taken ++ q.take left)) : Core3Ok s := by
  unfold Core3Ok
  rw [hpc, hq]
  exact ⟨hleft, hok⟩

theorem shape_msegTake {room : Bool} (h : Shape s) (hstep : msegTake b s room = some s') :
    Shape s' := by
  have hcore3 := h.core3
  unfold msegTake at hstep
  split at hstep
  · next ok left taken hpc =>
    unfold Core3Ok at hcore3
    rw [hpc] at hcore3
    obtain ⟨hle, hok⟩ := hcore3
    dsimp only at hstep
    split at hstep
    · next hleft =>
      obtain ⟨e, he⟩ := h.take_head hpc hleft
      obtain ⟨hqueues, hcont⟩ := h.queues.popMseg he
      rw [he, Option.getD_some] at hstep
      -- the batch is the same list, one entry further on
      have hnext : left - 1 ≤
          (((s.mseg .band1).pop eagleMsegEntries).contents eagleMsegEntries).length := by
        rw [hcont, List.length_cons] at hle
        omega
      have hbatch : taken ++ (s.msegs .band1).take left = taken ++ [e] ++
          (((s.mseg .band1).pop eagleMsegEntries).contents eagleMsegEntries).take (left - 1) := by
        obtain ⟨k, rfl⟩ := Nat.exists_eq_succ_of_ne_zero hleft
        rw [hcont]
        simp
      rw [hbatch] at hok
      split at hstep
      · obtain rfl := Option.some.inj hstep
        refine ⟨hqueues.congr rfl rfl, h.chain, ?_⟩
        exact core3Ok_take rfl (by simp [RxState.msegs]) hnext hok
      · obtain rfl := Option.some.inj hstep
        refine ⟨hqueues.congr rfl rfl, h.chain, ?_⟩
        exact core3Ok_take rfl (by simp [RxState.msegs, bufIdReturn]) hnext hok
    · split at hstep
      · obtain rfl := Option.some.inj hstep
        exact h.setCore3 rfl rfl rfl rfl trivial
      · obtain rfl := Option.some.inj hstep
        exact h.setCore3 rfl rfl rfl rfl trivial
  · cases hstep

theorem shape_step {a : RxAction} (h : Shape s) (hstep : rxStep b s a = some s') : Shape s' := by
  cases a with
  | rxd dw1 dw2 icv force => exact shape_rxd h hstep
  | submit ok => exact shape_submit h hstep
  | put => exact shape_put h hstep
  | back => exact shape_back h hstep
  | emit => exact shape_emit h hstep
  | ppeStart => exact shape_ppe h (.inl hstep)
  | ppeEntry v info hdr => exact shape_ppeEntry h hstep
  | ppeReturn => exact shape_ppe h (.inr (.inl hstep))
  | ppeEnd => exact shape_ppe h (.inr (.inr hstep))
  | txqStart band => exact shape_core3 h (.inl ⟨band, hstep⟩)
  | txqEntry refused => exact shape_txqEntry h hstep
  | txqReturn => exact shape_core3 (b := b) h (.inr (.inl hstep))
  | msegStart => exact shape_msegStart h hstep
  | msegLook => exact shape_msegLook h hstep
  | msegTake room => exact shape_msegTake h hstep
  | eventStart old dw1 => exact shape_core3 (b := b) h (.inr (.inr (.inl ⟨old, dw1, hstep⟩)))
  | eventPut => exact shape_eventPut h hstep
  | eventReturn => exact shape_core3 (b := b) h (.inr (.inr (.inr hstep)))

end ClankerNPU.EagleRx
