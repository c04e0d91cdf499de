import ClankerNPU.Lib.FlagRing
import ClankerNPU.Lib.StepSystem

/-! # The pipeline ring between core 1 and core 2

    In pipeline mode core 1 queues each 5G frame in a ring of 3200 slots
    and core 2 classifies it. A slot is two words, the buffer id and the
    frame length; the id word doubles as the flag, -1 is a free slot.
    Both cores work without a lock. Each core is modelled at the
    granularity of single loads and stores of the shared words. -/

namespace ClankerNPU.Kite

/-! ## State -/

/-- `KITE_PIPE_ENTRIES` -/
def kitePipeEntries : ℕ := 3200

/-- The index after `i`, as both cores compute it. -/
def pipeNext (i : ℕ) : ℕ := if i + 1 = kitePipeEntries then 0 else i + 1

/-- One slot: the id word read as `s32`, the length as `u16`. -/
structure PipeSlot where
  id : ℤ
  len : ℕ
  deriving DecidableEq

/-- Where core 1 stands in the enqueue of `kite_rx_5g`. -/
inductive PipeProducer where
  | idle
  /-- about to read the slot at the write index -/
  | check (id : ℤ) (len : ℕ)
  /-- the slot was free: about to store the length -/
  | storeLen (id : ℤ) (len : ℕ)
  /-- about to store the id -/
  | storeId (id : ℤ) (len : ℕ)
  /-- about to move the write index -/
  | advance
  deriving DecidableEq

/-- Where core 2 stands in the loop of `kite_pipeline_worker`. -/
inductive PipeConsumer where
  /-- about to read the id at the read index -/
  | poll
  /-- an id was there: about to read the length -/
  | loaded (id : ℤ)
  /-- the read index has moved: about to store -1 in slot `i` -/
  | took (i : ℕ)
  /-- about to store the length 0 in slot `i` -/
  | cleared (i : ℕ)
  deriving DecidableEq

/-- The ring with the two cores, the pairs core 1 has stored and the
    pairs core 2 has dequeued so far. -/
structure PipeState where
  slot : ℕ → PipeSlot
  /-- `wifi_pipeline_widx` -/
  widx : ℕ
  ridx : ℕ
  producer : PipeProducer
  consumer : PipeConsumer
  stored : List (ℤ × ℕ)
  dequeued : List (ℤ × ℕ)

/-! ## Micro-steps -/

/-- Core 1's next access. The length goes through a `u16` store. -/
def PipeState.produce (s : PipeState) : PipeState :=
  match s.producer with
  | .idle => s
  | .check id len =>
    -- a slot in use is the refusal: the frame goes to the host unclassified
    if (s.slot s.widx).id ≠ -1 then { s with producer := .idle }
    else { s with producer := .storeLen id len }
  | .storeLen id len =>
    { s with slot := Function.update s.slot s.widx { s.slot s.widx with len := len % 2 ^ 16 }
             producer := .storeId id len }
  | .storeId id len =>
    { s with slot := Function.update s.slot s.widx { s.slot s.widx with id := id }
             producer := .advance
             stored := s.stored ++ [(id, len % 2 ^ 16)] }
  | .advance => { s with widx := pipeNext s.widx, producer := .idle }

/-- Core 2's next access. -/
def PipeState.consume (s : PipeState) : PipeState :=
  match s.consumer with
  | .poll =>
    if (s.slot s.ridx).id = -1 then s
    else { s with consumer := .loaded (s.slot s.ridx).id }
  | .loaded id =>
    { s with ridx := pipeNext s.ridx
             consumer := .took s.ridx
             dequeued := s.dequeued ++ [(id, (s.slot s.ridx).len)] }
  | .took i =>
    { s with slot := Function.update s.slot i { s.slot i with id := -1 }
             consumer := .cleared i }
  | .cleared i =>
    { s with slot := Function.update s.slot i { s.slot i with len := 0 }
             consumer := .poll }

/-- Core 1 has a frame for the ring, or one of the cores does its next
    access. -/
inductive PipeAction where
  | enqueue (id : ℤ) (len : ℕ)
  | produce
  | consume

/-- The ring as `npu_wifi_init.c` fills it, and all runs of the cores. An
    id of -1 is turned away before the enqueue. -/
def pipeSystem : StepSystem PipeState PipeAction where
  init := fun s => s = ⟨fun _ => ⟨-1, 0⟩, 0, 0, .idle, .poll, [], []⟩
  step := fun s a s' =>
    match a with
    | .enqueue id len =>
      s.producer = .idle ∧ id ≠ -1 ∧ s' = { s with producer := .check id len }
    | .produce => s' = s.produce
    | .consume => s' = s.consume

/-! ## First in, first out -/

/-- The pairs stored and not yet dequeued lie whole in the ring, in order
    from the read index on. -/
def PipeFifo (s : PipeState) : Prop :=
  ∃ q : List (ℤ × ℕ), s.stored = s.dequeued ++ q ∧ q.length ≤ kitePipeEntries ∧
    ∀ j (h : j < q.length), s.slot ((s.ridx + j) % kitePipeEntries) = ⟨q[j].1, q[j].2⟩

/-- An enqueue that finds its slot in use changes no slot, no index and
    no history. -/
def PipeRefusal (s : PipeState) : Prop :=
  ∀ id len, s.producer = .check id len → (s.slot s.widx).id ≠ -1 →
    s.produce = { s with producer := .idle }

/-- Core 1 does not store a length in a slot that core 2 has given free
    and is about to clear the length of; a zero length does no harm. -/
def pipeGuard (s : PipeState) (a : PipeAction) : Prop :=
  a = .produce → ∀ id len, s.producer = .storeLen id len → s.consumer = .cleared s.widx →
    len % 2 ^ 16 = 0

/-! ## The ring of flagged slots -/

/-- What a slot carries for the other core. -/
def PipeSlot.entry (c : PipeSlot) : Option (ℤ × ℕ) := if c.id = -1 then none else some (c.id, c.len)

theorem PipeSlot.entry_eq_none {c : PipeSlot} (h : c.id = -1) : c.entry = none := if_pos h

theorem PipeSlot.entry_of_ne {c : PipeSlot} (h : c.id ≠ -1) : c.entry = some (c.id, c.len) :=
  if_neg h

/-- The write index once the store under way is done. -/
def PipeState.widxView (s : PipeState) : ℕ :=
  match s.producer with
  | .advance => pipeNext s.widx
  | _ => s.widx

/-- The oldest slot core 2 has not given free. -/
def PipeState.ridxView (s : PipeState) : ℕ :=
  match s.consumer with
  | .took i => i
  | _ => s.ridx

/-- The state as a ring of flagged slots: core 1 puts with the store of
    the id, core 2 pops with the store of -1. -/
def PipeState.ring (s : PipeState) : FlagRing (ℤ × ℕ) where
  slot := fun i => (s.slot i).entry
  widx := s.widxView
  ridx := s.ridxView

theorem pipeNext_eq (i : ℕ) : pipeNext i = Circular.next (kitePipeEntries - 1) i := by
  unfold pipeNext Circular.next kitePipeEntries
  split_ifs <;> omega

/-- What core 2 still has to dequeue of the ring's contents: the entry it
    is just giving free is dequeued already. -/
def PipeState.pending (s : PipeState) : List (ℤ × ℕ) :=
  match s.consumer with
  | .took _ => (s.ring.contents kitePipeEntries).tail
  | _ => s.ring.contents kitePipeEntries

/-- What core 1 knows of the slot at the write index. -/
def PipeState.ProducerInv (s : PipeState) : Prop :=
  match s.producer with
  | .check id _ => id ≠ -1
  | .storeLen id _ => id ≠ -1 ∧ (s.slot s.widx).id = -1
  | .storeId id len =>
    id ≠ -1 ∧ (s.slot s.widx).id = -1 ∧ (s.slot s.widx).len = len % 2 ^ 16 ∧
      (s.consumer = .cleared s.widx → len % 2 ^ 16 = 0)
  | _ => True

/-- What core 2 knows of the slot it works on. -/
def PipeState.ConsumerInv (s : PipeState) : Prop :=
  match s.consumer with
  | .poll => True
  | .loaded id => id ≠ -1 ∧ (s.slot s.ridx).id = id
  | .took i => (s.slot i).id ≠ -1 ∧ s.ridx = pipeNext i
  | .cleared i => (s.slot i).id = -1 ∨ (s.slot i).len = 0

structure PipeInv (s : PipeState) : Prop where
  ok : s.ring.Ok kitePipeEntries
  ledger : s.stored = s.dequeued ++ s.pending
  producer : s.ProducerInv
  consumer : s.ConsumerInv

/-! ## Steps of core 1 -/

variable {s : PipeState} {id : ℤ} {len i : ℕ}

/-- The ring is the same when the entries and both views are. -/
theorem ring_congr {s' : PipeState} (hslot : ∀ j, (s'.slot j).entry = (s.slot j).entry)
    (hwidx : s'.widxView = s.widxView) (hridx : s'.ridxView = s.ridxView) : s'.ring = s.ring := by
  have hfun : (fun j => (s'.slot j).entry) = fun j => (s.slot j).entry := funext hslot
  unfold PipeState.ring
  rw [hfun, hwidx, hridx]

/-- What core 2 still has to dequeue is read off the ring and its place. -/
theorem pending_congr {s' : PipeState} (hring : s'.ring = s.ring)
    (hconsumer : s'.consumer = s.consumer) : s'.pending = s.pending := by
  unfold PipeState.pending
  rw [hring, hconsumer]

/-- A length store keeps every id. -/
theorem update_len_id (j : ℕ) :
    (Function.update s.slot i { s.slot i with len := len } j).id = (s.slot j).id := by
  by_cases hj : j = i
  · rw [hj, Function.update_self]
  · rw [Function.update_of_ne hj]

/-- A length stored in a slot that is free, or that has this length
    already, does not show. -/
theorem update_len_entry (h : (s.slot i).id = -1 ∨ (s.slot i).len = len) (j : ℕ) :
    (Function.update s.slot i { s.slot i with len := len } j).entry = (s.slot j).entry := by
  by_cases hj : j = i
  · rw [hj, Function.update_self]
    rcases h with hfree | hlen
    · rw [PipeSlot.entry_eq_none hfree]
      exact PipeSlot.entry_eq_none hfree
    · rw [← hlen]
  · rw [Function.update_of_ne hj]

/-- The slot at the oldest index core 2 has not given free. -/
theorem ring_head_of_took (hc : s.consumer = .took i) :
    s.ring.slot s.ring.ridx = (s.slot i).entry := by
  show (s.slot s.ridxView).entry = _
  simp only [PipeState.ridxView, hc]

/-- The entry core 2 is giving free is the first of the ring's contents. -/
theorem contents_of_took (h : PipeInv s) (hc : s.consumer = .took i) :
    s.ring.contents kitePipeEntries = ((s.slot i).id, (s.slot i).len) :: s.pending := by
  have hcons := h.consumer
  simp only [PipeState.ConsumerInv, hc] at hcons
  have hhead : s.ring.slot s.ring.ridx = some ((s.slot i).id, (s.slot i).len) := by
    rw [ring_head_of_took hc]
    exact PipeSlot.entry_of_ne hcons.1
  obtain ⟨-, hpop⟩ := h.ok.pop hhead
  simp only [PipeState.pending, hc]
  rw [hpop, List.tail_cons]

/-- Core 1 reads the slot at its write index. -/
theorem pipeInv_check (h : PipeInv s) (hp : s.producer = .check id len) : PipeInv s.produce := by
  have hprod := h.producer
  simp only [PipeState.ProducerInv, hp] at hprod
  simp only [PipeState.produce, hp]
  by_cases hused : (s.slot s.widx).id ≠ -1
  · rw [if_pos hused]
    have hring : PipeState.ring { s with producer := .idle } = s.ring :=
      ring_congr (fun _ => rfl) (by simp only [PipeState.widxView, hp]) rfl
    refine ⟨by rw [hring]; exact h.ok, ?_, trivial, h.consumer⟩
    rw [pending_congr hring rfl]
    exact h.ledger
  · rw [if_neg hused]
    have hring : PipeState.ring { s with producer := .storeLen id len } = s.ring :=
      ring_congr (fun _ => rfl) (by simp only [PipeState.widxView, hp]) rfl
    refine ⟨by rw [hring]; exact h.ok, ?_, ⟨hprod, not_not.mp hused⟩, h.consumer⟩
    rw [pending_congr hring rfl]
    exact h.ledger

/-- Core 1 stores the length; the guard keeps it off a slot whose length
    core 2 is about to clear. -/
theorem pipeInv_storeLen (h : PipeInv s) (hp : s.producer = .storeLen id len)
    (hguard : s.consumer = .cleared s.widx → len % 2 ^ 16 = 0) : PipeInv s.produce := by
  have hprod := h.producer
  simp only [PipeState.ProducerInv, hp] at hprod
  obtain ⟨hid, hfree⟩ := hprod
  simp only [PipeState.produce, hp]
  set s' : PipeState := { s with
    slot := Function.update s.slot s.widx { s.slot s.widx with len := len % 2 ^ 16 }
    producer := .storeId id len } with hs'
  have hring : s'.ring = s.ring :=
    ring_congr (update_len_entry (.inl hfree)) (by simp only [PipeState.widxView, hp, hs']) rfl
  refine ⟨by rw [hring]; exact h.ok, ?_, ?_, ?_⟩
  · rw [pending_congr hring rfl]
    exact h.ledger
  · show id ≠ -1 ∧ (s'.slot s.widx).id = -1 ∧ (s'.slot s.widx).len = len % 2 ^ 16 ∧
      (s.consumer = .cleared s.widx → len % 2 ^ 16 = 0)
    refine ⟨hid, ?_, ?_, hguard⟩
    · rw [hs', update_len_id]
      exact hfree
    · simp only [hs', Function.update_self]
  · -- core 2 looks at ids, and at a length only where the id is -1 no more
    have hcons := h.consumer
    cases hc : s.consumer with
    | poll => simp only [PipeState.ConsumerInv, hs', hc]
    | loaded id' =>
      simp only [PipeState.ConsumerInv, hc] at hcons
      simp only [PipeState.ConsumerInv, hs', hc, update_len_id]
      exact hcons
    | took i =>
      simp only [PipeState.ConsumerInv, hc] at hcons
      simp only [PipeState.ConsumerInv, hs', hc, update_len_id]
      exact hcons
    | cleared i =>
      simp only [PipeState.ConsumerInv, hc] at hcons
      simp only [PipeState.ConsumerInv, hs', hc, update_len_id]
      by_cases hi : i = s.widx
      · left
        rw [hi]
        exact hfree
      · rw [Function.update_of_ne hi]
        exact hcons

/-- The store of the id puts the pair into the ring. -/
theorem ring_put (hp : s.producer = .storeId id len) (h : s.ProducerInv) :
    s.ring.put kitePipeEntries (id, len % 2 ^ 16) = some s.produce.ring := by
  simp only [PipeState.ProducerInv, hp] at h
  obtain ⟨hid, hfree, hlen, -⟩ := h
  have hw : s.widxView = s.widx := by simp only [PipeState.widxView, hp]
  have hslot : s.ring.slot s.ring.widx = none := by
    show (s.slot s.widxView).entry = none
    rw [hw]
    exact PipeSlot.entry_eq_none hfree
  unfold FlagRing.put
  rw [hslot]
  simp only [Option.isSome_none, Bool.false_eq_true, if_false, PipeState.produce, hp]
  congr 1
  unfold PipeState.ring
  congr 1
  · funext j
    show Function.update (fun j => (s.slot j).entry) s.widxView (some (id, len % 2 ^ 16)) j =
      (Function.update s.slot s.widx { s.slot s.widx with id := id } j).entry
    rw [hw]
    by_cases hj : j = s.widx
    · rw [hj, Function.update_self, Function.update_self, PipeSlot.entry_of_ne hid]
      show _ = some (id, (s.slot s.widx).len)
      rw [hlen]
    · rw [Function.update_of_ne hj, Function.update_of_ne hj]
  · show Circular.next (kitePipeEntries - 1) s.widxView = pipeNext s.widx
    rw [hw, pipeNext_eq]

/-- Core 1 stores the id. -/
theorem pipeInv_storeId (h : PipeInv s) (hp : s.producer = .storeId id len) :
    PipeInv s.produce := by
  have hput := ring_put hp h.producer
  have hprod := h.producer
  simp only [PipeState.ProducerInv, hp] at hprod
  obtain ⟨hid, hfree, hlen, hzero⟩ := hprod
  obtain ⟨hok, hcontents⟩ := h.ok.put hput
  have hcons := h.consumer
  have hledger := h.ledger
  have hc : s.produce.consumer = s.consumer := by simp only [PipeState.produce, hp]
  have hstored : s.produce.stored = s.stored ++ [(id, len % 2 ^ 16)] := by
    simp only [PipeState.produce, hp]
  have hdeq : s.produce.dequeued = s.dequeued := by simp only [PipeState.produce, hp]
  have hslot (j : ℕ) (hj : j ≠ s.widx) : s.produce.slot j = s.slot j := by
    simp only [PipeState.produce, hp]
    rw [Function.update_of_ne hj]
  have hself : s.produce.slot s.widx = ⟨id, len % 2 ^ 16⟩ := by
    simp only [PipeState.produce, hp]
    rw [Function.update_self, hlen]
  refine ⟨hok, ?_, by simp only [PipeState.ProducerInv, PipeState.produce, hp], ?_⟩
  · -- the pair is the last one core 2 will dequeue
    have hpend : s.produce.pending = s.pending ++ [(id, len % 2 ^ 16)] := by
      cases hcs : s.consumer with
      | took i =>
        simp only [PipeState.pending, hc, hcs, hcontents]
        rw [contents_of_took h hcs, List.cons_append, List.tail_cons, List.tail_cons]
      | poll => simp only [PipeState.pending, hc, hcs, hcontents]
      | loaded id' => simp only [PipeState.pending, hc, hcs, hcontents]
      | cleared i => simp only [PipeState.pending, hc, hcs, hcontents]
    rw [hstored, hdeq, hledger, List.append_assoc, hpend]
  · -- core 2 is at a slot with an id, so not at the one just filled; the
    -- slot whose length it still clears is the exception
    have hridx : s.produce.ridx = s.ridx := by simp only [PipeState.produce, hp]
    have hwidx : s.produce.widx = s.widx := by simp only [PipeState.produce, hp]
    unfold PipeState.ConsumerInv at hcons ⊢
    rw [hc, hridx]
    cases hcs : s.consumer with
    | poll => trivial
    | loaded id' =>
      rw [hcs] at hcons
      obtain ⟨hne, heq⟩ := hcons
      rw [hslot s.ridx (by intro hw; rw [hw] at heq; exact hne (heq.symm.trans hfree))]
      exact ⟨hne, heq⟩
    | took i =>
      rw [hcs] at hcons
      obtain ⟨hne, hnext⟩ := hcons
      show (s.produce.slot i).id ≠ -1 ∧ s.ridx = pipeNext i
      rw [hslot i (by intro hw; rw [hw] at hne; exact hne hfree)]
      exact ⟨hne, hnext⟩
    | cleared i =>
      rw [hcs] at hcons
      show (s.produce.slot i).id = -1 ∨ (s.produce.slot i).len = 0
      by_cases hi : i = s.widx
      · right
        rw [hi, hself]
        exact hzero (by rw [hcs, hi])
      · rw [hslot i hi]
        exact hcons

/-- Core 1 moves its write index. -/
theorem pipeInv_advance (h : PipeInv s) (hp : s.producer = .advance) : PipeInv s.produce := by
  simp only [PipeState.produce, hp]
  have hring : PipeState.ring { s with widx := pipeNext s.widx, producer := .idle } = s.ring :=
    ring_congr (fun _ => rfl) (by simp only [PipeState.widxView, hp]) rfl
  refine ⟨by rw [hring]; exact h.ok, ?_, trivial, h.consumer⟩
  rw [pending_congr hring rfl]
  exact h.ledger

theorem pipeInv_produce (h : PipeInv s) (hguard : pipeGuard s .produce) : PipeInv s.produce := by
  cases hp : s.producer with
  | idle =>
    simp only [PipeState.produce, hp]
    exact h
  | check id len => exact pipeInv_check h hp
  | storeLen id len => exact pipeInv_storeLen h hp (hguard rfl id len hp)
  | storeId id len => exact pipeInv_storeId h hp
  | advance => exact pipeInv_advance h hp

/-! ## Steps of core 2 -/

/-- Core 2 reads the id at its read index. -/
theorem pipeInv_poll (h : PipeInv s) (hc : s.consumer = .poll) : PipeInv s.consume := by
  simp only [PipeState.consume, hc]
  by_cases hfree : (s.slot s.ridx).id = -1
  · rw [if_pos hfree]
    exact h
  · rw [if_neg hfree]
    have hview : s.ridxView = s.ridx := by simp only [PipeState.ridxView, hc]
    have hring : PipeState.ring { s with consumer := .loaded (s.slot s.ridx).id } = s.ring :=
      ring_congr (fun _ => rfl) rfl hview.symm
    have hledger := h.ledger
    have hprod := h.producer
    refine ⟨by rw [hring]; exact h.ok, ?_, ?_, hfree, rfl⟩
    · simp only [PipeState.pending, hc] at hledger
      simp only [PipeState.pending, hring]
      exact hledger
    · unfold PipeState.ProducerInv at hprod ⊢
      cases hp : s.producer with
      | idle => trivial
      | check id len => simpa only [hp] using hprod
      | storeLen id len => simpa only [hp] using hprod
      | storeId id len =>
        simp only [hp] at hprod ⊢
        refine ⟨hprod.1, hprod.2.1, hprod.2.2.1, ?_⟩
        intro hcl
        cases hcl
      | advance => trivial

/-- Core 2 reads the length and moves its read index. -/
theorem pipeInv_loaded {id' : ℤ} (h : PipeInv s) (hc : s.consumer = .loaded id') :
    PipeInv s.consume := by
  have hcons := h.consumer
  simp only [PipeState.ConsumerInv, hc] at hcons
  obtain ⟨hne, hid⟩ := hcons
  have hledger := h.ledger
  have hprod := h.producer
  simp only [PipeState.pending, hc] at hledger
  simp only [PipeState.consume, hc]
  set s' : PipeState := { s with
    ridx := pipeNext s.ridx
    consumer := .took s.ridx
    dequeued := s.dequeued ++ [(id', (s.slot s.ridx).len)] } with hs'
  have hview : s.ridxView = s.ridx := by simp only [PipeState.ridxView, hc]
  have hring : s'.ring = s.ring := ring_congr (fun _ => rfl) rfl hview.symm
  have hhead : s.ring.slot s.ring.ridx = some (id', (s.slot s.ridx).len) := by
    show (s.slot s.ridxView).entry = _
    rw [hview, PipeSlot.entry_of_ne (by rw [hid]; exact hne), hid]
  obtain ⟨-, hpop⟩ := h.ok.pop hhead
  refine ⟨by rw [hring]; exact h.ok, ?_, ?_, ?_, rfl⟩
  · -- the head of the ring moves from the pending pairs to the dequeued ones
    have hpend : s'.pending = (s.ring.pop kitePipeEntries).contents kitePipeEntries := by
      show (s'.ring.contents kitePipeEntries).tail = _
      rw [hring, hpop, List.tail_cons]
    show s.stored = s.dequeued ++ [(id', (s.slot s.ridx).len)] ++ s'.pending
    rw [hpend, List.append_assoc, hledger, hpop, List.singleton_append]
  · -- core 1 looks at slots only, and none has changed
    unfold PipeState.ProducerInv at hprod ⊢
    cases hp : s.producer with
    | idle => trivial
    | check id len => simpa only [hs', hp] using hprod
    | storeLen id len => simpa only [hs', hp] using hprod
    | storeId id len =>
      simp only [hs', hp] at hprod ⊢
      refine ⟨hprod.1, hprod.2.1, hprod.2.2.1, ?_⟩
      intro hcl
      cases hcl
    | advance => trivial
  · show (s.slot s.ridx).id ≠ -1
    rw [hid]
    exact hne

/-- Core 2 gives the slot free: the pop. -/
theorem ring_pop (h : PipeInv s) (hc : s.consumer = .took i) :
    s.consume.ring = s.ring.pop kitePipeEntries := by
  have hcons := h.consumer
  simp only [PipeState.ConsumerInv, hc] at hcons
  have hview : s.ridxView = i := by simp only [PipeState.ridxView, hc]
  simp only [PipeState.consume, hc]
  unfold PipeState.ring FlagRing.pop
  congr 1
  · funext j
    show (Function.update s.slot i { s.slot i with id := -1 } j).entry =
      Function.update (fun j => (s.slot j).entry) s.ridxView none j
    rw [hview]
    by_cases hj : j = i
    · rw [hj, Function.update_self, Function.update_self]
      exact PipeSlot.entry_eq_none rfl
    · rw [Function.update_of_ne hj, Function.update_of_ne hj]
  · show s.ridx = Circular.next (kitePipeEntries - 1) s.ridxView
    rw [hview, hcons.2, pipeNext_eq]

/-- Core 2 stores -1 in the slot it has read. -/
theorem pipeInv_took (h : PipeInv s) (hc : s.consumer = .took i) : PipeInv s.consume := by
  have hcons := h.consumer
  simp only [PipeState.ConsumerInv, hc] at hcons
  have hcontents := contents_of_took h hc
  have hledger := h.ledger
  have hprod := h.producer
  have hhead : s.ring.slot s.ring.ridx = some ((s.slot i).id, (s.slot i).len) := by
    rw [ring_head_of_took hc]
    exact PipeSlot.entry_of_ne hcons.1
  obtain ⟨hok, hpop⟩ := h.ok.pop hhead
  have hring := ring_pop h hc
  have hslot (j : ℕ) (hj : j ≠ i) : s.consume.slot j = s.slot j := by
    simp only [PipeState.consume, hc]
    rw [Function.update_of_ne hj]
  have hwidx : s.consume.widx = s.widx := by simp only [PipeState.consume, hc]
  have hp' : s.consume.producer = s.producer := by simp only [PipeState.consume, hc]
  have hc' : s.consume.consumer = .cleared i := by simp only [PipeState.consume, hc]
  refine ⟨by rw [hring]; exact hok, ?_, ?_, ?_⟩
  · -- the pair has left the queue and the pending list together
    have hpend : s.consume.pending = s.pending := by
      simp only [PipeState.pending, hc', hc, hring]
      rw [hpop, List.tail_cons]
    have hstored : s.consume.stored = s.stored := by simp only [PipeState.consume, hc]
    have hdeq : s.consume.dequeued = s.dequeued := by simp only [PipeState.consume, hc]
    rw [hpend, hstored, hdeq]
    exact hledger
  · -- core 1 waits on a free slot, never on this one
    unfold PipeState.ProducerInv at hprod ⊢
    rw [hp', hwidx]
    cases hp : s.producer with
    | idle => trivial
    | advance => trivial
    | check id len =>
      rw [hp] at hprod
      exact hprod
    | storeLen id len =>
      rw [hp] at hprod
      obtain ⟨hid, hfree⟩ := hprod
      refine ⟨hid, ?_⟩
      rw [hslot s.widx (by intro hw; rw [← hw] at hcons; exact hcons.1 hfree)]
      exact hfree
    | storeId id len =>
      rw [hp] at hprod
      obtain ⟨hid, hfree, hlen, -⟩ := hprod
      have hne : s.widx ≠ i := by
        intro hw
        rw [← hw] at hcons
        exact hcons.1 hfree
      show id ≠ -1 ∧ (s.consume.slot s.widx).id = -1 ∧
        (s.consume.slot s.widx).len = len % 2 ^ 16 ∧ _
      rw [hslot s.widx hne]
      refine ⟨hid, hfree, hlen, ?_⟩
      intro hcl
      rw [hc'] at hcl
      exact absurd (PipeConsumer.cleared.inj hcl).symm hne
  · simp only [PipeState.ConsumerInv, hc']
    left
    simp only [PipeState.consume, hc, Function.update_self]

/-- Core 2 clears the length of the slot it has given free. -/
theorem pipeInv_cleared (h : PipeInv s) (hc : s.consumer = .cleared i) : PipeInv s.consume := by
  have hcons := h.consumer
  simp only [PipeState.ConsumerInv, hc] at hcons
  have hledger := h.ledger
  have hprod := h.producer
  simp only [PipeState.consume, hc]
  set s' : PipeState := { s with
    slot := Function.update s.slot i { s.slot i with len := 0 }
    consumer := .poll } with hs'
  have hview : s.ridxView = s.ridx := by simp only [PipeState.ridxView, hc]
  have hring : s'.ring = s.ring := ring_congr (update_len_entry hcons) rfl hview.symm
  refine ⟨by rw [hring]; exact h.ok, ?_, ?_, trivial⟩
  · simp only [PipeState.pending, hc] at hledger
    simp only [PipeState.pending, hs'] at hring ⊢
    rw [hring]
    exact hledger
  · unfold PipeState.ProducerInv at hprod ⊢
    cases hp : s.producer with
    | idle => trivial
    | advance => trivial
    | check id len => simpa only [hs', hp] using hprod
    | storeLen id len => simpa only [hs', hp, update_len_id] using hprod
    | storeId id len =>
      simp only [hp] at hprod
      obtain ⟨hid, hfree, hlen, hzero⟩ := hprod
      simp only [hs', hp, update_len_id]
      refine ⟨hid, hfree, ?_, fun hcl => by cases hcl⟩
      by_cases hw : s.widx = i
      · -- the length core 1 stored there is zero as well
        rw [hw, Function.update_self]
        exact (hzero (by rw [hc, hw])).symm
      · rw [Function.update_of_ne hw]
        exact hlen

theorem pipeInv_consume (h : PipeInv s) : PipeInv s.consume := by
  cases hc : s.consumer with
  | poll => exact pipeInv_poll h hc
  | loaded id' => exact pipeInv_loaded h hc
  | took i => exact pipeInv_took h hc
  | cleared i => exact pipeInv_cleared h hc

/-! ## Runs -/

theorem pipeInv_init (h : pipeSystem.init s) : PipeInv s := by
  obtain rfl := h
  have hring : PipeState.ring ⟨fun _ => ⟨-1, 0⟩, 0, 0, .idle, .poll, [], []⟩ = FlagRing.empty := rfl
  have hpos : 0 < kitePipeEntries := by decide
  refine ⟨by rw [hring]; exact FlagRing.ok_empty hpos, ?_, trivial, trivial⟩
  show [] = [] ++ (PipeState.ring _).contents kitePipeEntries
  rw [hring, FlagRing.contents_empty hpos, List.append_nil]

theorem pipeInv_step {s' : PipeState} {a : PipeAction} (h : PipeInv s) (hguard : pipeGuard s a)
    (hstep : pipeSystem.step s a s') : PipeInv s' := by
  cases a with
  | enqueue id len =>
    obtain ⟨hidle, hid, rfl⟩ := hstep
    have hring : PipeState.ring { s with producer := .check id len } = s.ring :=
      ring_congr (fun _ => rfl) (by simp only [PipeState.widxView, hidle]) rfl
    refine ⟨by rw [hring]; exact h.ok, ?_, hid, h.consumer⟩
    rw [pending_congr hring rfl]
    exact h.ledger
  | produce =>
    obtain rfl : s' = s.produce := hstep
    exact pipeInv_produce h hguard
  | consume =>
    obtain rfl : s' = s.consume := hstep
    exact pipeInv_consume h

theorem pipeInv_of_reachable (h : (pipeSystem.guarded pipeGuard).Reachable s) : PipeInv s :=
  StepSystem.Reachable.invariant (T := pipeSystem.guarded pipeGuard) (fun _ => pipeInv_init)
    (fun _ _ _ hinv hs => pipeInv_step hinv hs.1 hs.2) h

/-- A slot with an entry holds its pair. -/
theorem slot_of_entry {c : PipeSlot} {e : ℤ × ℕ} (h : c.entry = some e) : c = ⟨e.1, e.2⟩ := by
  unfold PipeSlot.entry at h
  split at h
  · cases h
  · obtain rfl := Option.some.inj h
    rfl

theorem pending_length_le (h : PipeInv s) : s.pending.length ≤ kitePipeEntries := by
  have hle : (s.ring.contents kitePipeEntries).length ≤ kitePipeEntries :=
    FlagRing.Holds.length_le h.ok
  unfold PipeState.pending
  split
  · rw [List.length_tail]
    omega
  · exact hle

/-- The pending pairs' entries from the read index on. -/
theorem entry_of_pending (h : PipeInv s) {j : ℕ} (hj : j < s.pending.length) :
    (s.slot ((s.ridx + j) % kitePipeEntries)).entry = s.pending[j]? := by
  have hle : (s.ring.contents kitePipeEntries).length ≤ kitePipeEntries :=
    FlagRing.Holds.length_le h.ok
  -- away from the middle of a dequeue the pending pairs are the ring's contents
  have hplain (hpend : s.pending = s.ring.contents kitePipeEntries) (hview : s.ridxView = s.ridx) :
      (s.slot ((s.ridx + j) % kitePipeEntries)).entry = s.pending[j]? := by
    have hslot := h.ok.slot_eq (j := j) (by rw [hpend] at hj; omega)
    rw [hpend, ← hview]
    exact hslot
  cases hc : s.consumer with
  | took i =>
    -- the read index is one past the entry being given free
    have hcons := h.consumer
    simp only [PipeState.ConsumerInv, hc] at hcons
    have hcontents := contents_of_took h hc
    have hview : s.ring.ridx = i := by
      show s.ridxView = i
      simp only [PipeState.ridxView, hc]
    have hlt : i < kitePipeEntries := by
      rw [← hview]
      exact FlagRing.Holds.ridx_lt h.ok
    have hlen : s.pending.length + 1 ≤ kitePipeEntries := by
      rw [hcontents, List.length_cons] at hle
      exact hle
    have hslot := h.ok.slot_eq (j := j + 1) (by omega)
    rw [hcontents, List.getElem?_cons_succ, hview] at hslot
    rw [hcons.2, pipeNext_eq, Circular.next_pred_eq_mod hlt, Circular.mod_add_mod_eq,
      Nat.add_comm 1 j]
    exact hslot
  | poll =>
    exact hplain (by simp only [PipeState.pending, hc]) (by simp only [PipeState.ridxView, hc])
  | loaded id' =>
    exact hplain (by simp only [PipeState.pending, hc]) (by simp only [PipeState.ridxView, hc])
  | cleared i =>
    exact hplain (by simp only [PipeState.pending, hc]) (by simp only [PipeState.ridxView, hc])

/-- The pending pairs lie in the ring from the read index on. -/
theorem slot_of_pending (h : PipeInv s) {j : ℕ} (hj : j < s.pending.length) :
    s.slot ((s.ridx + j) % kitePipeEntries) = ⟨s.pending[j].1, s.pending[j].2⟩ := by
  apply slot_of_entry
  rw [← List.getElem?_eq_getElem hj]
  exact entry_of_pending h hj

theorem pipeRefusal (s : PipeState) : PipeRefusal s := by
  intro id len hp hused
  simp only [PipeState.produce, hp]
  rw [if_pos hused]

/-- Where core 1 never stores a length between the two stores with which
    core 2 gives that slot free, the ring is first in, first out and a
    refused enqueue leaves it alone. -/
theorem pipe_fifo (h : (pipeSystem.guarded pipeGuard).Reachable s) :
    PipeFifo s ∧ PipeRefusal s := by
  have hinv := pipeInv_of_reachable h
  exact ⟨⟨s.pending, hinv.ledger, pending_length_le hinv, fun _ hj => slot_of_pending hinv hj⟩,
    pipeRefusal s⟩

/-- The next state, where the action is possible -/
def PipeState.act (s : PipeState) : PipeAction → Option PipeState
  | .enqueue id len =>
    if s.producer = .idle ∧ id ≠ -1 then some { s with producer := .check id len } else none
  | .produce => some s.produce
  | .consume => some s.consume

theorem pipeSystem_of_act {s' : PipeState} {a : PipeAction} (h : s.act a = some s') :
    pipeSystem.step s a s' := by
  cases a with
  | enqueue id len =>
    obtain ⟨⟨hidle, hid⟩, hnext⟩ := Option.ite_none_right_eq_some.mp h
    exact ⟨hidle, hid, (Option.some.inj hnext).symm⟩
  | produce => exact (Option.some.inj h).symm
  | consume => exact (Option.some.inj h).symm

/-- Core 2 polls while core 1 stores the first frame, and takes that frame
    and gives its slot free while core 1 stores the second. -/
def twoFrames : List PipeAction :=
  [.enqueue 7 100, .produce, .consume, .produce, .produce, .consume, .produce, .enqueue 9 60,
    .consume, .produce, .produce, .consume, .produce, .consume, .produce]

/-- The first of two frames is dequeued, the second waits. -/
theorem pipe_fifo_two :
    ∃ s, (pipeSystem.guarded pipeGuard).Reachable s ∧
      (s.stored = [(7, 100), (9, 60)] ∧ s.dequeued = [(7, 100)]) ∧
      PipeFifo s ∧ PipeRefusal s := by
  have hrun : (StepSystem.run PipeState.act (fun s _ => decide (s.consumer ≠ .cleared s.widx))
      ⟨fun _ => ⟨-1, 0⟩, 0, 0, .idle, .poll, [], []⟩ twoFrames).any
      (fun s => s.stored = [(7, 100), (9, 60)] ∧ s.dequeued = [(7, 100)]) = true := by
    decide +kernel
  obtain ⟨s, hs, hframes⟩ := (Option.any_eq_true _ _).mp hrun
  have hreach : (pipeSystem.guarded pipeGuard).Reachable s := by
    refine StepSystem.Reachable.of_run ?_ (.init rfl) hs
    -- core 2 is not clearing the slot core 1 writes next
    intro s a s' hfree hact
    exact ⟨fun _ _ _ _ hc => absurd hc (of_decide_eq_true hfree), pipeSystem_of_act hact⟩
  exact ⟨s, hreach, of_decide_eq_true hframes, pipe_fifo hreach⟩

/-! ## A full ring -/

theorem reachable_produced (h : pipeSystem.Reachable s) : pipeSystem.Reachable s.produce :=
  h.step .produce rfl

theorem reachable_consumed (h : pipeSystem.Reachable s) : pipeSystem.Reachable s.consume :=
  h.step .consume rfl

/-- The four accesses of an enqueue that meets a free slot. -/
theorem produce_frame (hfree : (s.slot s.widx).id = -1) :
    PipeState.produce (PipeState.produce (PipeState.produce (PipeState.produce
      { s with producer := .check id len }))) =
    { s with slot := Function.update s.slot s.widx ⟨id, len % 2 ^ 16⟩
             widx := pipeNext s.widx
             producer := .idle
             stored := s.stored ++ [(id, len % 2 ^ 16)] } := by
  simp [PipeState.produce, hfree]

/-- Core 1 has stored `k` equal frames and core 2 none has taken. -/
def filled (k : ℕ) : PipeState where
  slot := fun i => if i < k then ⟨7, 100⟩ else ⟨-1, 0⟩
  widx := k % kitePipeEntries
  ridx := 0
  producer := .idle
  consumer := .poll
  stored := List.replicate k (7, 100)
  dequeued := []

theorem filled_succ {k : ℕ} (hk : k < kitePipeEntries) :
    { filled k with
      slot := Function.update (filled k).slot (filled k).widx ⟨7, 100⟩
      widx := pipeNext (filled k).widx
      stored := (filled k).stored ++ [(7, 100)] } = filled (k + 1) := by
  have hw : (filled k).widx = k := Nat.mod_eq_of_lt hk
  have hnext : pipeNext k = (k + 1) % kitePipeEntries := by
    rw [pipeNext_eq, Circular.next_pred_eq_mod hk]
  have hslot : Function.update (filled k).slot k ⟨7, 100⟩ = (filled (k + 1)).slot := by
    funext i
    show Function.update (fun i => if i < k then (⟨7, 100⟩ : PipeSlot) else ⟨-1, 0⟩) k ⟨7, 100⟩ i =
      if i < k + 1 then ⟨7, 100⟩ else ⟨-1, 0⟩
    by_cases hi : i = k
    · rw [hi, Function.update_self, if_pos (Nat.lt_succ_self k)]
    · rw [Function.update_of_ne hi]
      by_cases hlt : i < k
      · rw [if_pos hlt, if_pos (by omega)]
      · rw [if_neg hlt, if_neg (by omega)]
  have hstored : (filled k).stored ++ [(7, 100)] = (filled (k + 1)).stored :=
    List.replicate_succ'.symm
  rw [hw, hslot, hnext, hstored]
  rfl

theorem reachable_filled {k : ℕ} (hk : k ≤ kitePipeEntries) : pipeSystem.Reachable (filled k) := by
  induction k with
  | zero =>
    apply StepSystem.Reachable.init
    show filled 0 = _
    unfold filled
    congr 1
  | succ k ih =>
    have hlt : k < kitePipeEntries := hk
    have hfree : ((filled k).slot (filled k).widx).id = -1 := by
      have hw : (filled k).widx = k := Nat.mod_eq_of_lt hlt
      rw [hw]
      show (if k < k then (⟨7, 100⟩ : PipeSlot) else ⟨-1, 0⟩).id = -1
      rw [if_neg (Nat.lt_irrefl k)]
    have hcheck : pipeSystem.Reachable { filled k with producer := .check 7 100 } :=
      (ih hlt.le).step (.enqueue 7 100) ⟨rfl, by decide, rfl⟩
    have hrun :=
      reachable_produced (reachable_produced (reachable_produced (reachable_produced hcheck)))
    rw [produce_frame hfree] at hrun
    rw [← filled_succ hlt]
    exact hrun

/-- A full ring after core 2 has taken the first frame and core 1 has
    stored a length in its slot between core 2's two last stores: the
    frame is stored with length 100 and its slot says 0. -/
def PipeState.overtaken (s : PipeState) : PipeState :=
  { s with slot := Function.update s.slot 0 ⟨9, 0⟩
           ridx := 1
           producer := .advance
           stored := s.stored ++ [(9, 100)]
           dequeued := s.dequeued ++ [(7, 100)] }

theorem reachable_overtaken (h : pipeSystem.Reachable s) (hslot : s.slot 0 = ⟨7, 100⟩)
    (hwidx : s.widx = 0) (hridx : s.ridx = 0) (hp : s.producer = .idle) (hc : s.consumer = .poll) :
    pipeSystem.Reachable s.overtaken := by
  obtain ⟨slot, widx, ridx, producer, consumer, stored, dequeued⟩ := s
  simp only at hslot hwidx hridx hp hc
  subst hwidx hridx hp hc
  have hnext : pipeNext 0 = 1 := by decide
  -- core 2 takes the first frame and gives its slot free
  have hfreed := reachable_consumed (reachable_consumed (reachable_consumed h))
  -- core 1 has the next frame and stores its length
  have hcheck : pipeSystem.Reachable { PipeState.consume (PipeState.consume (PipeState.consume
      ⟨slot, 0, 0, .idle, .poll, stored, dequeued⟩)) with producer := .check 9 100 } := by
    apply hfreed.step (.enqueue 9 100)
    simp [PipeState.consume, hslot, pipeSystem]
  have hlength := reachable_produced (reachable_produced hcheck)
  -- core 2 clears the length, core 1 stores the id
  have hlast := reachable_produced (reachable_consumed hlength)
  simp only [PipeState.consume, PipeState.produce, hslot] at hlast
  simpa [PipeState.overtaken, hnext, hslot] using hlast

/-- The length of a frame is lost. -/
theorem pipe_length_lost : ∃ s, pipeSystem.Reachable s ∧ ¬PipeFifo s := by
  have hpos : 0 < kitePipeEntries := by decide
  refine ⟨(filled kitePipeEntries).overtaken, ?_, ?_⟩
  · have hfull := reachable_filled (le_refl kitePipeEntries)
    apply reachable_overtaken hfull ?_ (Nat.mod_self _) rfl rfl rfl
    show (if 0 < kitePipeEntries then (⟨7, 100⟩ : PipeSlot) else ⟨-1, 0⟩) = ⟨7, 100⟩
    rw [if_pos hpos]
  rintro ⟨q, hq, hle, hslot⟩
  set overtaken := (filled kitePipeEntries).overtaken with hover
  have hlen : q.length = kitePipeEntries := by
    have hcount := congrArg List.length hq
    simp only [hover, PipeState.overtaken, filled, List.length_append, List.length_replicate,
      List.length_cons, List.length_nil] at hcount
    omega
  have hlast : q[kitePipeEntries - 1]? = some (9, 100) := by
    have hget := congrArg (fun l : List (ℤ × ℕ) => l[kitePipeEntries]?) hq
    have hleft : overtaken.stored[kitePipeEntries]? = some (9, 100) := by
      show (List.replicate kitePipeEntries ((7 : ℤ), 100) ++ [(9, 100)])[kitePipeEntries]? = _
      rw [List.getElem?_append_right (by rw [List.length_replicate]), List.length_replicate,
        Nat.sub_self]
      rfl
    have hright : (overtaken.dequeued ++ q)[kitePipeEntries]? = q[kitePipeEntries - 1]? := by
      rw [List.getElem?_append_right hpos]
      rfl
    rw [← hright, ← hleft]
    exact hget.symm
  have hcell := hslot (kitePipeEntries - 1) (by omega)
  have hwrap : (overtaken.ridx + (kitePipeEntries - 1)) % kitePipeEntries = 0 := by
    show (1 + (kitePipeEntries - 1)) % kitePipeEntries = 0
    rw [Nat.add_sub_cancel' hpos, Nat.mod_self]
  have hval := (List.getElem?_eq_some_iff.mp hlast).2
  rw [hwrap, hval] at hcell
  have hlost : overtaken.slot 0 = ⟨9, 0⟩ := rfl
  rw [hlost] at hcell
  exact absurd (congrArg PipeSlot.len hcell) (by decide)

end ClankerNPU.Kite
