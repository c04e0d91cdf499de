import ClankerNPU.Bufid.Safety
import Mathlib.Data.BitVec

/-! # Batches of ids

    With `HAS_ID_BATCH` the rings have a second set of functions that
    take or give back several ids under one hold of the mutex. They are
    written anew: 32-bit locals in place of the 16-bit globals, one
    store of the index at the end, one failure count for a short batch.
    Here a call runs to its end under the mutex, so each function is a
    map of the ring's state; the interleavings are in `IdRing`. -/

namespace ClankerNPU.Bufid

/-! ## State -/

/-- What a ring slot holds: an id. Both rings' ids are below `2 ^ 15`,
    so a slot read as `s16` is never negative. -/
def IdWord : Type := { w : ℕ // w < 2 ^ 15 }

/-- The `s32` a single alloc returns for a slot it reads as `s16`. -/
def IdWord.toS32 (w : IdWord) : ℤ := s16 w.val

theorem IdWord.toS32_eq (w : IdWord) : w.toS32 = w.val := s16_of_lt w.property

theorem IdWord.toS32_ne_neg_one (w : IdWord) : w.toS32 ≠ -1 := by
  rw [w.toS32_eq]
  omega

/-- What the functions of one ring are compiled with: its last index and
    the places of its statistics in the counter block. -/
structure RingDesc where
  last : ℕ
  last_lt : last < 2 ^ 16
  /-- offset of the count of taken ids; the failures are 4 behind it -/
  ok : ℕ
  /-- offset of the count of returned ids -/
  cnt : ℕ
  /-- the ring keeps a count of returned ids of its own -/
  countsFree : Bool

/-- The rx buffer id ring. -/
def rxDesc (b : Build) : RingDesc where
  last := b.bufidPoolEntries - 1
  last_lt := by
    unfold Build.bufidPoolEntries
    split_ifs <;> omega
  ok := 0x1C
  cnt := 0x18
  countsFree := false

/-- The tx token ring. -/
def txDesc : RingDesc where
  last := txFreeRingEntries - 1
  last_lt := by decide
  ok := 0x50
  cnt := 0x4C
  countsFree := true

/-- A ring with every count its functions keep. `ridx` and `widx` name
    slots. -/
@[ext] structure CountedRing (d : RingDesc) where
  slot : ℕ → IdWord
  ridx : ℕ
  widx : ℕ
  /-- `rx_bufid_alloc_count`, `bufid_deq_count` -/
  allocCount : BitVec 32
  /-- `bufid_enq_count` -/
  freeCount : BitVec 32
  /-- the words at `counter_base_tri` -/
  counter : ℕ → BitVec 32
  ridx_le : ridx ≤ d.last
  widx_le : widx ≤ d.last

/-- The globals that switch the statistics on. -/
structure StatFlags where
  wifiDebugFlags : ℕ
  counterBaseTri : ℕ

/-- `(wifi_debug_flags & 4) && counter_base_tri` -/
def StatFlags.counting (g : StatFlags) : Bool :=
  g.wifiDebugFlags &&& 4 ≠ 0 && g.counterBaseTri ≠ 0

/-- `*(u32 *)(counter_base_tri + off) += n`, when the statistics are on. -/
def StatFlags.bump (g : StatFlags) (off n : ℕ) (counter : ℕ → BitVec 32) : ℕ → BitVec 32 :=
  if g.counting then Function.update counter off (counter off + BitVec.ofNat 32 n) else counter

/-- The index after `i` as the single functions compute it, in `u16`. -/
def next16 (last i : ℕ) : ℕ := if i = last then 0 else (i + 1) % 2 ^ 16

theorem next16_le {last i : ℕ} (h : i ≤ last) : next16 last i ≤ last := by
  unfold next16
  split <;> omega

theorem next16_eq {last i : ℕ} (hlast : last < 2 ^ 16) (h : i ≤ last) :
    next16 last i = Circular.next last i := by
  unfold next16 Circular.next
  split <;> omega

theorem next_le {last i : ℕ} (h : i ≤ last) : Circular.next last i ≤ last := by
  unfold Circular.next
  split <;> omega

/-! ## One id a call -/

variable {d : RingDesc} (g : StatFlags)

/-- The body of `buf_id_alloc_ring` and `tx_token_alloc`. -/
def allocOne (s : CountedRing d) : CountedRing d × ℤ :=
  let nx := next16 d.last s.ridx
  if s.widx = nx then ({ s with counter := g.bump (d.ok + 4) 1 s.counter }, -1)
  else
    ({ s with allocCount := s.allocCount + 1
              counter := g.bump d.ok 1 s.counter
              ridx := nx
              ridx_le := next16_le s.ridx_le }, (s.slot s.ridx).toS32)

/-- The body of `buf_id_return` and `tx_token_free`. -/
def freeOne (s : CountedRing d) (id : IdWord) : CountedRing d :=
  { s with slot := Function.update s.slot s.widx id
           freeCount := if d.countsFree then s.freeCount + 1 else s.freeCount
           counter := g.bump d.cnt 1 s.counter
           widx := next16 d.last s.widx
           widx_le := next16_le s.widx_le }

def bufIdReturn (b : Build) (s : CountedRing (rxDesc b)) (id : IdWord) : CountedRing (rxDesc b) :=
  freeOne g s id

def bufIdAllocRing (b : Build) (s : CountedRing (rxDesc b)) : CountedRing (rxDesc b) × ℤ :=
  allocOne g s

def txTokenFree (s : CountedRing txDesc) (token : IdWord) : CountedRing txDesc := freeOne g s token

def txTokenAlloc (s : CountedRing txDesc) : CountedRing txDesc × ℤ := allocOne g s

/-! ## Several ids a call -/

/-- The copy loop of `id_ring_take`, from the index `r` on: the ids and
    the index it stops at. -/
def takeLoop (last : ℕ) (slot : ℕ → IdWord) (w : ℕ) : ℕ → ℕ → List IdWord × ℕ
  | 0, r => ([], r)
  | max + 1, r =>
    if Circular.next last r = w then ([], r)
    else
      let rest := takeLoop last slot w max (Circular.next last r)
      (slot r :: rest.1, rest.2)

theorem takeLoop_index_le {last w max r : ℕ} {slot : ℕ → IdWord} (h : r ≤ last) :
    (takeLoop last slot w max r).2 ≤ last := by
  induction max generalizing r with
  | zero => exact h
  | succ max ih =>
    unfold takeLoop
    split
    · exact h
    · exact ih (next_le h)

/-- `id_ring_take`; the index is stored through a `u16` pointer. -/
def idRingTake (s : CountedRing d) (max : ℕ) : CountedRing d × List IdWord :=
  let out := takeLoop d.last s.slot s.widx max s.ridx
  let n := out.1.length
  let counter := g.bump d.ok n s.counter
  ({ s with ridx := out.2 % 2 ^ 16
            allocCount := s.allocCount + BitVec.ofNat 32 n
            counter := if n < max then g.bump (d.ok + 4) 1 counter else counter
            ridx_le := (Nat.mod_le _ _).trans (takeLoop_index_le s.ridx_le) }, out.1)

/-- The store loop of `id_ring_put`. -/
def putLoop (last : ℕ) : (ℕ → IdWord) → ℕ → List IdWord → (ℕ → IdWord) × ℕ
  | slot, w, [] => (slot, w)
  | slot, w, id :: ids => putLoop last (Function.update slot w id) (Circular.next last w) ids

theorem putLoop_index_le {last w : ℕ} {slot : ℕ → IdWord} {ids : List IdWord} (h : w ≤ last) :
    (putLoop last slot w ids).2 ≤ last := by
  induction ids generalizing slot w with
  | nil => exact h
  | cons id ids ih => exact ih (next_le h)

/-- `id_ring_put` -/
def idRingPut (s : CountedRing d) (ids : List IdWord) : CountedRing d :=
  let out := putLoop d.last s.slot s.widx ids
  { s with slot := out.1
           freeCount := if d.countsFree then s.freeCount + BitVec.ofNat 32 ids.length
                        else s.freeCount
           counter := g.bump d.cnt ids.length s.counter
           widx := out.2 % 2 ^ 16
           widx_le := (Nat.mod_le _ _).trans (putLoop_index_le s.widx_le) }

def bufIdAllocRingN (b : Build) (s : CountedRing (rxDesc b)) (max : ℕ) :
    CountedRing (rxDesc b) × List IdWord :=
  idRingTake g s max

def bufIdReturnN (b : Build) (s : CountedRing (rxDesc b)) (ids : List IdWord) :
    CountedRing (rxDesc b) :=
  idRingPut g s ids

def txTokenAllocN (s : CountedRing txDesc) (max : ℕ) : CountedRing txDesc × List IdWord :=
  idRingTake g s max

def txTokenFreeN (s : CountedRing txDesc) (ids : List IdWord) : CountedRing txDesc :=
  idRingPut g s ids

/-! ## Counting in one go -/

variable {g}

theorem StatFlags.bump_zero {off : ℕ} {counter : ℕ → BitVec 32} :
    g.bump off 0 counter = counter := by
  unfold StatFlags.bump
  split
  · have hzero : counter off + BitVec.ofNat 32 0 = counter off := BitVec.add_zero _
    rw [hzero, Function.update_eq_self]
  · rfl

/-- Counts at one place add up. -/
theorem StatFlags.bump_bump {off m n : ℕ} {counter : ℕ → BitVec 32} :
    g.bump off m (g.bump off n counter) = g.bump off (n + m) counter := by
  unfold StatFlags.bump
  split
  · rw [Function.update_idem, Function.update_self, BitVec.add_assoc, ← BitVec.ofNat_add]
  · rfl

/-! ## Taking -/

/-- Call a single alloc until `max` ids are taken or one call answers
    -1; the ids it answered. -/
def singles (alloc : CountedRing d → CountedRing d × ℤ) :
    ℕ → CountedRing d → CountedRing d × List ℤ
  | 0, s => (s, [])
  | max + 1, s =>
    if (alloc s).2 = -1 then ((alloc s).1, [])
    else
      let rest := singles alloc max (alloc s).1
      (rest.1, (alloc s).2 :: rest.2)

/-- A single alloc on a ring with its last id taken only counts. -/
theorem allocOne_of_eq {s : CountedRing d} (h : Circular.next d.last s.ridx = s.widx) :
    allocOne g s = ({ s with counter := g.bump (d.ok + 4) 1 s.counter }, -1) := by
  have hnext : s.widx = next16 d.last s.ridx := by rw [next16_eq d.last_lt s.ridx_le, h]
  simp only [allocOne]
  rw [if_pos hnext]

/-- A single alloc otherwise takes the slot at the read index. -/
theorem allocOne_of_ne {s : CountedRing d} (h : Circular.next d.last s.ridx ≠ s.widx) :
    allocOne g s =
      ({ s with allocCount := s.allocCount + 1
                counter := g.bump d.ok 1 s.counter
                ridx := Circular.next d.last s.ridx
                ridx_le := next_le s.ridx_le }, (s.slot s.ridx).toS32) := by
  have hnext := next16_eq d.last_lt s.ridx_le
  have hne : s.widx ≠ next16 d.last s.ridx := by
    rw [hnext]
    exact Ne.symm h
  simp only [allocOne]
  rw [if_neg hne]
  simp only [hnext]

theorem idRingTake_zero {s : CountedRing d} : idRingTake g s 0 = (s, []) := by
  have hlt : s.ridx < 2 ^ 16 := s.ridx_le.trans_lt d.last_lt
  simp only [idRingTake, takeLoop, List.length_nil, StatFlags.bump_zero, Nat.lt_irrefl, if_false,
    Nat.mod_eq_of_lt hlt]
  rw [Prod.mk.injEq]
  refine ⟨?_, rfl⟩
  ext <;> simp

/-- On an empty ring a batch counts its one failure. -/
theorem idRingTake_of_eq {s : CountedRing d} {max : ℕ}
    (h : Circular.next d.last s.ridx = s.widx) :
    idRingTake g s (max + 1) = ({ s with counter := g.bump (d.ok + 4) 1 s.counter }, []) := by
  have hlt : s.ridx < 2 ^ 16 := s.ridx_le.trans_lt d.last_lt
  have hloop : takeLoop d.last s.slot s.widx (max + 1) s.ridx = ([], s.ridx) := by
    unfold takeLoop
    rw [if_pos h]
  simp only [idRingTake, hloop, List.length_nil, StatFlags.bump_zero, Nat.succ_pos, if_true,
    Nat.mod_eq_of_lt hlt]
  rw [Prod.mk.injEq]
  refine ⟨?_, rfl⟩
  ext <;> simp

/-- A batch is one single alloc and a batch for the rest. -/
theorem idRingTake_of_ne {s : CountedRing d} {max : ℕ}
    (h : Circular.next d.last s.ridx ≠ s.widx) :
    idRingTake g s (max + 1) =
      ((idRingTake g (allocOne g s).1 max).1,
        s.slot s.ridx :: (idRingTake g (allocOne g s).1 max).2) := by
  have hloop : takeLoop d.last s.slot s.widx (max + 1) s.ridx =
      (s.slot s.ridx :: (takeLoop d.last s.slot s.widx max (Circular.next d.last s.ridx)).1,
        (takeLoop d.last s.slot s.widx max (Circular.next d.last s.ridx)).2) := by
    rw [takeLoop, if_neg h]
  rw [allocOne_of_ne h]
  simp only [idRingTake, hloop, List.length_cons, StatFlags.bump_bump]
  -- the counts: one more in front of the rest
  have hcount (c : BitVec 32) (n : ℕ) :
      c + BitVec.ofNat 32 (n + 1) = c + 1 + BitVec.ofNat 32 n := by
    rw [Nat.add_comm n 1, BitVec.ofNat_add, BitVec.add_assoc]
    rfl
  simp only [hcount, Nat.add_lt_add_iff_right, Nat.add_comm 1]

/-- A batch take is its single allocs. -/
theorem idRingTake_eq_singles (s : CountedRing d) (max : ℕ) :
    singles (allocOne g) max s =
      ((idRingTake g s max).1, (idRingTake g s max).2.map fun w => (w.val : ℤ)) := by
  induction max generalizing s with
  | zero =>
    rw [idRingTake_zero]
    rfl
  | succ max ih =>
    unfold singles
    by_cases h : Circular.next d.last s.ridx = s.widx
    · rw [allocOne_of_eq h, idRingTake_of_eq h]
      rfl
    · have hid : (allocOne g s).2 = (s.slot s.ridx).toS32 := by rw [allocOne_of_ne h]
      rw [if_neg (by rw [hid]; exact IdWord.toS32_ne_neg_one _), ih, idRingTake_of_ne h, hid,
        IdWord.toS32_eq]
      rfl

/-! ## Giving back -/

theorem idRingPut_nil {s : CountedRing d} : idRingPut g s [] = s := by
  have hlt : s.widx < 2 ^ 16 := s.widx_le.trans_lt d.last_lt
  simp only [idRingPut, putLoop, List.length_nil, StatFlags.bump_zero, Nat.mod_eq_of_lt hlt]
  ext <;> simp

/-- A batch return is one single return and a batch for the rest. -/
theorem idRingPut_cons {s : CountedRing d} {id : IdWord} {ids : List IdWord} :
    idRingPut g s (id :: ids) = idRingPut g (freeOne g s id) ids := by
  have hnext := next16_eq d.last_lt s.widx_le
  have hcount (c : BitVec 32) (n : ℕ) :
      c + BitVec.ofNat 32 (n + 1) = c + 1 + BitVec.ofNat 32 n := by
    rw [Nat.add_comm n 1, BitVec.ofNat_add, BitVec.add_assoc]
    rfl
  simp only [idRingPut, freeOne, putLoop, List.length_cons, StatFlags.bump_bump, hnext, hcount,
    Nat.add_comm 1]
  congr 1
  split <;> rfl

/-- A batch return is its single returns. -/
theorem idRingPut_eq_singles (s : CountedRing d) (ids : List IdWord) :
    idRingPut g s ids = ids.foldl (freeOne g) s := by
  induction ids generalizing s with
  | nil => exact idRingPut_nil
  | cons id ids ih => rw [idRingPut_cons, ih, List.foldl_cons]

/-! ## Both rings -/

/-- The batch functions leave what their single functions leave, and
    yield the same ids in the same order. -/
theorem batch_eq_singles (g : StatFlags) (b : Build) :
    (∀ (s : CountedRing (rxDesc b)) (max : ℕ),
      singles (bufIdAllocRing g b) max s =
        ((bufIdAllocRingN g b s max).1,
          (bufIdAllocRingN g b s max).2.map fun w => (w.val : ℤ))) ∧
    (∀ (s : CountedRing (rxDesc b)) (ids : List IdWord),
      bufIdReturnN g b s ids = ids.foldl (bufIdReturn g b) s) ∧
    (∀ (s : CountedRing txDesc) (max : ℕ),
      singles (txTokenAlloc g) max s =
        ((txTokenAllocN g s max).1, (txTokenAllocN g s max).2.map fun w => (w.val : ℤ))) ∧
    (∀ (s : CountedRing txDesc) (ids : List IdWord),
      txTokenFreeN g s ids = ids.foldl (txTokenFree g) s) := by
  refine ⟨?_, ?_, ?_, ?_⟩
  · intro s max
    exact idRingTake_eq_singles s max
  · intro s ids
    exact idRingPut_eq_singles s ids
  · intro s max
    exact idRingTake_eq_singles s max
  · intro s ids
    exact idRingPut_eq_singles s ids

end ClankerNPU.Bufid
