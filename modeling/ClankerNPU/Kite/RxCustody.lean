import ClankerNPU.Kite.RxPath
import ClankerNPU.Lib.Custody
import Mathlib.Algebra.BigOperators.Fin
import Mathlib.Algebra.BigOperators.Intervals
import Mathlib.Data.Finset.Range
import Mathlib.Tactic.IntervalCases

/-! # Custody of the kite rx buffers

    Where an rx buffer id can be: in the pool, in the pipeline, with the
    classifier, the TDMA engine or the host, and on each band in the table
    of the rx ring, in the rx function's hand, in a node ring, or lost. No
    step of the rx function or a drain puts an id into a second place or
    takes one out of all. -/

open scoped BigOperators

namespace ClankerNPU.Kite

open Custody

variable {cfg : RxCfg} {b : Bool} {s : RxBand} {l l' : RxLocal} {points : ℕ → ℕ → Prop}

/-! ## Places -/

/-- Where an rx buffer id can be. -/
inductive RxPlace where
  | pool
  | away
  | pipe
  | slots (b : Bool)
  | hand (b : Bool)
  | segs (b : Bool)
  | wholes (b : Bool)
  | lost (b : Bool)
  deriving DecidableEq

instance : Fintype RxPlace where
  elems := {.pool, .away, .pipe, .slots false, .hand false, .segs false, .wholes false, .lost false,
    .slots true, .hand true, .segs true, .wholes true, .lost true}
  complete := by
    intro p
    cases p <;> first | decide | (rename_i b; cases b <;> decide)

/-- The slots of the table whose ids are in the ring, as far as the rx
    function goes. -/
def RxPc.live : RxPc → Finset ℕ
  | .refill idx _ _ _ _ _ => (Finset.range rxRing).erase idx
  | _ => Finset.range rxRing

/-- The slots of the table whose ids are in the ring. -/
def RxBand.live (s : RxBand) : Finset ℕ :=
  match s.mail with
  | .freeing i _ => Finset.Ico i rxRing
  | .filling i _ => Finset.range i
  | _ => if s.initDone then s.rx.live else Finset.range s.unset

/-- The id in the rx function's hand. -/
def RxPc.hand : RxPc → Multiset ℕ
  | .classify old _ => {old}
  | .forward e _ => {e.bufId}
  | .giveBack id _ => {id}
  | .seg _ _ _ _ _ id _ => {id}
  | .refill _ _ _ _ _ id => {id}
  | .copy _ _ _ id => {id}
  | _ => 0

/-- How many nodes `rxnode_drain` has given back but not cleared. -/
def SegDrainPc.given : SegDrainPc → ℕ
  | .clear _ => 1
  | _ => 0

def WholeDrainPc.given : WholeDrainPc → ℕ
  | .clear => 1
  | _ => 0

/-- The ids of the given slots -/
def slotIds (live : Finset ℕ) (tbl : ℕ → ℕ) : Multiset ℕ := ∑ i ∈ live, {tbl i}

/-- The ids in the segment ring -/
def RxBand.segIds (s : RxBand) : Multiset ℕ :=
  ((((s.segs.contents rxnodeRingSize).drop s.segDrain.given).map RxNode.bufId : List ℕ) :
    Multiset ℕ)

/-- The ids in the ring of whole frames -/
def RxBand.wholeIds (b : Bool) (s : RxBand) : Multiset ℕ :=
  ((((s.wholes.contents (wholeRing b)).drop s.wholeDrain.given).map PiNode.bufId : List ℕ) :
    Multiset ℕ)

/-- What each place holds. -/
def RxState.held (s : RxState) : RxPlace → Multiset ℕ
  | .pool => s.pool
  | .away => s.away
  | .pipe => s.pipe.filled kitePipeEntries
  | .slots b => slotIds (s.band b).live (s.band b).tbl
  | .hand b => (s.band b).rx.hand
  | .segs b => (s.band b).segIds
  | .wholes b => (s.band b).wholeIds b
  | .lost b => ((s.band b).lost : Multiset ℕ)

/-- What a band holds, with the given slots in the ring. -/
def RxBand.held (live : Finset ℕ) (b : Bool) (s : RxBand) : Multiset ℕ :=
  slotIds live s.tbl + s.rx.hand + s.segIds + s.wholeIds b + (s.lost : Multiset ℕ)

/-- What a band and what is around it hold. -/
def RxLocal.total (live : Finset ℕ) (b : Bool) (l : RxLocal) : Multiset ℕ :=
  l.pool + l.away + l.pipe.filled kitePipeEntries + l.band.held live b

/-- What a band of the state holds. -/
def RxState.bandHeld (s : RxState) (b : Bool) : Multiset ℕ := (s.band b).held (s.band b).live b

theorem sum_held (s : RxState) :
    ∑ p, s.held p = s.pool + s.away + s.pipe.filled kitePipeEntries + ∑ b, s.bandHeld b := by
  have huniv : (Finset.univ : Finset RxPlace) = {.pool, .away, .pipe, .slots false, .hand false,
    .segs false, .wholes false, .lost false, .slots true, .hand true, .segs true, .wholes true,
    .lost true} := rfl
  rw [huniv, Fintype.sum_bool]
  simp [RxState.held, RxState.bandHeld, RxBand.held]
  abel

@[simp] theorem put_band (s : RxState) (b : Bool) (l : RxLocal) : (s.put b l).band b = l.band :=
  Function.update_self _ _ _

theorem put_band_of_ne (s : RxState) (l : RxLocal) {c : Bool} (h : c ≠ b) :
    (s.put b l).band c = s.band c :=
  Function.update_of_ne h _ _

/-- A step of one band that keeps what it and what is around it hold keeps
    the whole. -/
theorem sum_held_put (s : RxState) (b : Bool) (l : RxLocal)
    (h : l.total l.band.live b = (s.on b).total (s.band b).live b) :
    ∑ p, (s.put b l).held p = ∑ p, s.held p := by
  have hother := sum_agree_off (s.put b l).bandHeld s.bandHeld b fun c hc => by
    unfold RxState.bandHeld
    rw [put_band_of_ne s l hc]
  have hband : (s.put b l).bandHeld b = l.band.held l.band.live b := by
    unfold RxState.bandHeld
    rw [put_band]
  rw [sum_held, sum_held]
  -- both sides, with what the band held before
  apply add_right_cancel (b := s.bandHeld b)
  calc (s.put b l).pool + (s.put b l).away + (s.put b l).pipe.filled kitePipeEntries +
        ∑ c, (s.put b l).bandHeld c + s.bandHeld b
      = l.pool + l.away + l.pipe.filled kitePipeEntries +
          (∑ c, (s.put b l).bandHeld c + s.bandHeld b) := by
          rw [add_assoc]
          rfl
    _ = l.total l.band.live b + ∑ c, s.bandHeld c := by
          rw [hother, hband]
          unfold RxLocal.total
          abel
    _ = s.pool + s.away + s.pipe.filled kitePipeEntries + ∑ c, s.bandHeld c + s.bandHeld b := by
          rw [h]
          unfold RxLocal.total RxState.on RxState.bandHeld
          abel

/-! ## The table -/

theorem slotIds_congr {live : Finset ℕ} {tbl tbl' : ℕ → ℕ} (h : ∀ i ∈ live, tbl i = tbl' i) :
    slotIds live tbl = slotIds live tbl' :=
  Finset.sum_congr rfl fun i hi => by rw [h i hi]

/-- A slot and the others -/
theorem slotIds_erase {live : Finset ℕ} (tbl : ℕ → ℕ) {idx : ℕ} (h : idx ∈ live) :
    slotIds live tbl = {tbl idx} + slotIds (live.erase idx) tbl :=
  (Finset.add_sum_erase live (fun i => ({tbl i} : Multiset ℕ)) h).symm

theorem slotIds_erase_update (live : Finset ℕ) (tbl : ℕ → ℕ) (idx id : ℕ) :
    slotIds (live.erase idx) (Function.update tbl idx id) = slotIds (live.erase idx) tbl :=
  slotIds_congr fun _ hi => Function.update_of_ne (Finset.ne_of_mem_erase hi) _ _

/-- A slot with another id. -/
theorem slotIds_update {live : Finset ℕ} (tbl : ℕ → ℕ) {idx : ℕ} (id : ℕ) (h : idx ∈ live) :
    slotIds live (Function.update tbl idx id) + {tbl idx} = slotIds live tbl + {id} := by
  rw [slotIds_erase _ h, slotIds_erase_update, slotIds_erase tbl h, Function.update_self]
  abel

theorem slotIds_range_succ (tbl : ℕ → ℕ) (i id : ℕ) :
    slotIds (Finset.range (i + 1)) (Function.update tbl i id) =
      {id} + slotIds (Finset.range i) tbl := by
  rw [slotIds_erase _ (Finset.self_mem_range_succ i), slotIds_erase_update, Function.update_self,
    Finset.range_add_one, Finset.erase_insert Finset.notMem_range_self]

theorem slotIds_eq_map (live : Finset ℕ) (tbl : ℕ → ℕ) : slotIds live tbl = live.val.map tbl :=
  calc slotIds live tbl = ((live.val.map tbl).map fun a => {a}).sum := by
          rw [Multiset.map_map]
          rfl
    _ = live.val.map tbl := Multiset.sum_map_singleton _

theorem mem_slotIds {live : Finset ℕ} {tbl : ℕ → ℕ} {i : ℕ} (h : i ∈ live) :
    tbl i ∈ slotIds live tbl := by
  rw [slotIds_eq_map]
  exact Multiset.mem_map_of_mem tbl h

/-- Slots that hold no id twice -/
theorem slotIds_injOn {live : Finset ℕ} {tbl : ℕ → ℕ} (h : (slotIds live tbl).Nodup) :
    Set.InjOn tbl live := by
  rw [slotIds_eq_map] at h
  exact fun i hi j hj heq => Multiset.inj_on_of_nodup_map h i hi j hj heq

theorem slotIds_Ico {tbl : ℕ → ℕ} {i n : ℕ} (h : i < n) :
    slotIds (Finset.Ico i n) tbl = {tbl i} + slotIds (Finset.Ico (i + 1) n) tbl := by
  unfold slotIds
  rw [Finset.sum_eq_sum_Ico_succ_bot h]

/-! ## What a band keeps -/

/-- The places of the rx function inside the ring -/
def RxPc.Ok : RxPc → Prop
  | .single ridx _ => ridx < rxRing
  | .forward _ next | .giveBack _ next => next < rxRing
  | .skip idx _ | .segs idx _ _ _ _ | .seg idx _ _ _ _ _ _ | .refill idx _ _ _ _ _ |
    .copyAlloc idx _ _ | .copy idx _ _ _ => idx < rxRing
  | .idle | .called | .classify _ _ => True

/-- What the segment drain has counted is in the ring. -/
def SegDrainPc.Ok (r : FlagRing RxNode) : SegDrainPc → Prop
  | .idle | .called => True
  | .scan i _ count => i = (r.ridx + count) % rxnodeRingSize ∧ count < 8 ∧
      count ≤ (r.contents rxnodeRingSize).length
  | .process count => count ≤ (r.contents rxnodeRingSize).length
  | .clear count => count + 1 ≤ (r.contents rxnodeRingSize).length

/-- The rings and the three functions of a band fit together. -/
structure RxBand.Ok (b : Bool) (s : RxBand) : Prop where
  segs : s.segs.Ok rxnodeRingSize
  segDrain : s.segDrain.Ok s.segs
  wholes : s.wholes.Ok (wholeRing b)
  wholeDrain : s.wholeDrain.given ≤ (s.wholes.contents (wholeRing b)).length
  rx : s.rx.Ok
  cpuIdx : s.cpuIdx < rxRing

/-- The address is the one the chip knows the buffer by. -/
def RxCfg.BusAddr (cfg : RxCfg) (id addr : ℕ) : Prop := addr = pktDma cfg.pktBuf id

/-- The address is one of the two of the buffer. -/
def RxCfg.EitherAddr (cfg : RxCfg) (id addr : ℕ) : Prop :=
  addr = pktDma cfg.pktBuf id ∨ addr = pktVa cfg.pktBuf id

/-- A descriptor has an address `points` allows for the buffer its slot
    names, and the length of a buffer unless the chip has filled it. -/
def RxBand.ArmedAt (points : ℕ → ℕ → Prop) (s : RxBand) (i : ℕ) : Prop :=
  points (s.tbl i) (s.desc i).addr ∧ ((s.desc i).done = true ∨ (s.desc i).frag = kiteRxBufLen)

/-- `points` allows the addresses the next step of the rx function can
    write. -/
structure RxBand.Arms (cfg : RxCfg) (points : ℕ → ℕ → Prop) (s : RxBand) : Prop where
  dma : ∀ id, points id (pktDma cfg.pktBuf id)
  va : ∀ idx n len count seg id, s.rx = .refill idx n len count seg id →
    points id (pktVa cfg.pktBuf id)

/-- What a step of the rx function or a drain keeps. -/
structure Keeps (points : ℕ → ℕ → Prop) (b : Bool) (l l' : RxLocal) : Prop where
  total : l'.total l'.band.rx.live b = l.total l.band.rx.live b
  ok : l'.band.Ok b
  armed : (∀ i ∈ l.band.rx.live, l.band.ArmedAt points i) →
    ∀ i ∈ l'.band.rx.live, l'.band.ArmedAt points i

/-- The length word of a descriptor given back -/
theorem recycled_w1 (w1 : BitVec 32) :
    let w := (((w1 >>> 16) &&& 0x4000#32) ||| 0xDAC#32) <<< 16 ||| (w1 &&& 0xFFFF#32)
    (w >>> 16) &&& 0x3FFF#32 = 0xDAC#32 := by
  apply BitVec.eq_of_getLsbD_eq
  intro i hi
  interval_cases i <;> simp

theorem frag_recycled (d : RxDesc) : d.recycled.frag = kiteRxBufLen := by
  unfold RxDesc.recycled RxDesc.frag
  dsimp only
  rw [recycled_w1]
  rfl

/-- A descriptor left alone or given back. -/
def Rearmed (d d' : RxDesc) : Prop := d' = d ∨ d' = d.recycled

theorem rearmed_update (desc : ℕ → RxDesc) (idx i : ℕ) :
    Rearmed (desc i) (Function.update desc idx (desc idx).recycled i) := by
  by_cases hi : i = idx
  · rw [hi, Function.update_self]
    exact .inr rfl
  · rw [Function.update_of_ne hi]
    exact .inl rfl

theorem armedAt_of_rearmed {s s' : RxBand} {i : ℕ} (h : s.ArmedAt points i)
    (htbl : s'.tbl i = s.tbl i) (hd : Rearmed (s.desc i) (s'.desc i)) :
    s'.ArmedAt points i := by
  unfold RxBand.ArmedAt at h ⊢
  rw [htbl]
  rcases hd with hd | hd
  · rw [hd]
    exact h
  · rw [hd]
    exact ⟨h.1, .inr (frag_recycled _)⟩

/-- A slot just armed. -/
theorem armedAt_arm (s : RxBand) (idx id addr : ℕ) (haddr : points id addr) (pc : RxPc) (c : ℕ) :
    RxBand.ArmedAt points { s.arm idx id addr with rx := pc, cpuIdx := c } idx := by
  unfold RxBand.ArmedAt RxBand.arm
  simp only [Function.update_self]
  exact ⟨haddr, .inr (frag_recycled _)⟩

/-- The other slots of a ring with one armed. -/
theorem armedAt_arm_of_ne {s : RxBand} {idx id addr i : ℕ} (hi : i ≠ idx) (h : s.ArmedAt points i)
    (pc : RxPc) (c : ℕ) :
    RxBand.ArmedAt points { s.arm idx id addr with rx := pc, cpuIdx := c } i := by
  unfold RxBand.ArmedAt RxBand.arm at *
  simp only [Function.update_of_ne hi]
  exact h

theorem rxNext_lt {idx : ℕ} (h : idx < rxRing) : rxNext idx < rxRing :=
  Nat.lt_succ_of_le (rxNext_le (Nat.le_of_lt_succ h))

/-! ## The rx function -/

/-- A move that changes no id's place. -/
theorem Keeps.moved {pc : RxPc} {c : ℕ} {d : ℕ → RxDesc} (hok : l.band.Ok b)
    (hlive : pc.live = l.band.rx.live) (hhand : pc.hand = l.band.rx.hand) (hpc : pc.Ok)
    (hc : c < rxRing) (hd : ∀ i, Rearmed (l.band.desc i) (d i)) :
    Keeps points b l { l with band := { l.band with desc := d, cpuIdx := c, rx := pc } } where
  total := by
    unfold RxLocal.total RxBand.held
    dsimp only
    rw [hlive, hhand]
    rfl
  ok := ⟨hok.segs, hok.segDrain, hok.wholes, hok.wholeDrain, hpc, hc⟩
  armed h i hi := by
    change i ∈ pc.live at hi
    rw [hlive] at hi
    exact armedAt_of_rearmed (h i hi) rfl (hd i)

theorem Keeps.goto {pc : RxPc} (hok : l.band.Ok b) (hlive : pc.live = l.band.rx.live)
    (hhand : pc.hand = l.band.rx.hand) (hpc : pc.Ok) : Keeps points b l (l.goto pc) :=
  .moved hok hlive hhand hpc hok.cpuIdx fun _ => .inl rfl

theorem Keeps.done {c : ℕ} (hok : l.band.Ok b) (hlive : l.band.rx.live = Finset.range rxRing)
    (hhand : l.band.rx.hand = 0) (hc : c < rxRing) : Keeps points b l (l.done c) :=
  .moved hok hlive.symm hhand.symm trivial hc fun _ => .inl rfl

/-- What a call on the pool comes to. -/
theorem alloc_cases {id : Option ℕ} {fail : RxLocal} {ok : ℕ → RxLocal → RxLocal}
    (h : l.alloc id fail ok = some l') :
    l' = fail ∨ ∃ i ∈ l.pool, l' = ok i { l with pool := l.pool.erase i } := by
  unfold RxLocal.alloc at h
  cases id with
  | none => exact .inl (Option.some.inj h).symm
  | some i =>
    dsimp only at h
    by_cases hi : i ∈ l.pool
    · rw [if_pos hi] at h
      exact .inr ⟨i, hi, (Option.some.inj h).symm⟩
    · rw [if_neg hi] at h
      cases h

/-- An id from the pool in the rx function's hand. -/
theorem Keeps.allocated {pc : RxPc} {i : ℕ} (hok : l.band.Ok b) (hi : i ∈ l.pool)
    (hlive : pc.live = l.band.rx.live) (hempty : l.band.rx.hand = 0) (hhand : pc.hand = {i})
    (hpc : pc.Ok) : Keeps points b l (RxLocal.goto { l with pool := l.pool.erase i } pc) where
  total := by
    unfold RxLocal.total RxBand.held RxLocal.goto
    dsimp only
    rw [hlive, hhand, hempty, ← Multiset.cons_erase hi, Multiset.erase_cons_head,
      ← Multiset.singleton_add]
    show _ + (_ + _ + l.band.segIds + l.band.wholeIds b + _) = _
    abel
  ok := ⟨hok.segs, hok.segDrain, hok.wholes, hok.wholeDrain, hpc, hok.cpuIdx⟩
  armed h j hj := by
    change j ∈ pc.live at hj
    rw [hlive] at hj
    exact h j hj

/-- A frame of one descriptor changes its id for a fresh one. -/
theorem Keeps.swapped {ridx len id : ℕ} (hok : l.band.Ok b) (hpc : l.band.rx = .single ridx len)
    (hid : id ∈ l.pool) (haddr : points id (pktDma cfg.pktBuf id)) :
    Keeps points b l { l with
      band := { l.band.arm ridx id (pktDma cfg.pktBuf id) with
        rx := .classify (l.band.tbl ridx) len, cpuIdx := rxNext ridx }
      pool := l.pool.erase id } where
  total := by
    have hr : ridx < rxRing := by
      have := hok.rx
      rw [hpc] at this
      exact this
    unfold RxLocal.total RxBand.held
    dsimp only
    rw [hpc]
    show _ + (slotIds (Finset.range rxRing) (Function.update l.band.tbl ridx id) +
      {l.band.tbl ridx} + l.band.segIds + l.band.wholeIds b + _) =
      _ + (slotIds (Finset.range rxRing) l.band.tbl + 0 + _ + _ + _)
    conv_rhs => rw [← Multiset.cons_erase hid, ← Multiset.singleton_add]
    rw [slotIds_update _ _ (Finset.mem_range.mpr hr)]
    show _ + (_ + (l.band.lost : Multiset ℕ)) = _
    abel
  ok := by
    have hr := hok.rx
    rw [hpc] at hr
    exact ⟨hok.segs, hok.segDrain, hok.wholes, hok.wholeDrain, trivial, rxNext_lt hr⟩
  armed h j hj := by
    by_cases hji : j = ridx
    · rw [hji]
      exact armedAt_arm l.band ridx id _ haddr _ _
    · refine armedAt_arm_of_ne hji (h j ?_) _ _
      rw [hpc]
      exact hj

/-- The classifier keeps a frame. -/
theorem Keeps.taken {old len : ℕ} (hok : l.band.Ok b) (hpc : l.band.rx = .classify old len) :
    Keeps points b l { l.goto .idle with away := old ::ₘ l.away } where
  total := by
    unfold RxLocal.total RxBand.held RxLocal.goto
    dsimp only
    rw [hpc]
    show _ + (slotIds (Finset.range rxRing) l.band.tbl + 0 + l.band.segIds +
        l.band.wholeIds b + _) =
      _ + (slotIds (Finset.range rxRing) l.band.tbl + {old} + _ + _ + _)
    rw [← Multiset.singleton_add]
    abel
  ok := ⟨hok.segs, hok.segDrain, hok.wholes, hok.wholeDrain, trivial, hok.cpuIdx⟩
  armed h j hj := h j (by rw [hpc]; exact hj)

/-- A frame for core 2 -/
theorem Keeps.piped {old len : ℕ} {r : FlagRing ℕ} (hok : l.band.Ok b)
    (hpc : l.band.rx = .classify old len) (hw : l.pipe.widx < kitePipeEntries)
    (hput : l.pipe.put kitePipeEntries old = some r) :
    Keeps points b l { l.goto .idle with pipe := r } where
  total := by
    unfold RxLocal.total RxBand.held RxLocal.goto
    dsimp only
    rw [hpc, FlagRing.filled_put hw hput]
    show _ + (slotIds (Finset.range rxRing) l.band.tbl + 0 + l.band.segIds +
        l.band.wholeIds b + _) =
      _ + (slotIds (Finset.range rxRing) l.band.tbl + {old} + _ + _ + _)
    abel
  ok := ⟨hok.segs, hok.segDrain, hok.wholes, hok.wholeDrain, trivial, hok.cpuIdx⟩
  armed h j hj := h j (by rw [hpc]; exact hj)

/-- A frame the node ring has no room for goes back to the pool. -/
theorem Keeps.givenBack {id next : ℕ} (hok : l.band.Ok b) (hpc : l.band.rx = .giveBack id next) :
    Keeps points b l { l.done next with pool := id ::ₘ l.pool } where
  total := by
    unfold RxLocal.total RxBand.held RxLocal.done
    dsimp only
    rw [hpc]
    show _ + (slotIds (Finset.range rxRing) l.band.tbl + 0 + l.band.segIds +
        l.band.wholeIds b + _) =
      _ + (slotIds (Finset.range rxRing) l.band.tbl + {id} + _ + _ + _)
    rw [← Multiset.singleton_add]
    abel
  ok := by
    have hrx := hok.rx
    rw [hpc] at hrx
    exact ⟨hok.segs, hok.segDrain, hok.wholes, hok.wholeDrain, trivial, hrx⟩
  armed h j hj := h j (by rw [hpc]; exact hj)

/-- A whole frame in its node ring. -/
theorem wholes_put {e : PiNode} {r : FlagRing PiNode} (hok : s.Ok b)
    (hput : s.wholes.put (wholeRing b) e = some r) :
    r.Ok (wholeRing b) ∧ s.wholeDrain.given ≤ (r.contents (wholeRing b)).length ∧
      RxBand.wholeIds b { s with wholes := r } = s.wholeIds b + {e.bufId} := by
  obtain ⟨hr, hcontents⟩ := hok.wholes.put hput
  have hgiven := hok.wholeDrain
  refine ⟨hr, ?_, ?_⟩
  · rw [hcontents, List.length_append]
    omega
  · unfold RxBand.wholeIds
    dsimp only
    rw [hcontents, List.drop_append_of_le_length hgiven, List.map_append, ← Multiset.coe_add]
    rfl

/-- A segment in its node ring. -/
theorem segs_put {e : RxNode} {r : FlagRing RxNode} (hok : s.Ok b)
    (hput : s.segs.put rxnodeRingSize e = some r) :
    r.Ok rxnodeRingSize ∧ s.segDrain.Ok r ∧
      RxBand.segIds { s with segs := r } = s.segIds + {e.bufId} := by
  obtain ⟨hr, hcontents⟩ := hok.segs.put hput
  have hridx := FlagRing.put_ridx hput
  have hdrain := hok.segDrain
  have hlen : (r.contents rxnodeRingSize).length = (s.segs.contents rxnodeRingSize).length + 1 := by
    rw [hcontents, List.length_append, List.length_singleton]
  have hgiven : s.segDrain.given ≤ (s.segs.contents rxnodeRingSize).length := by
    cases hpc : s.segDrain with
    | clear count =>
      rw [hpc] at hdrain
      exact le_trans (Nat.le_add_left 1 count) hdrain
    | idle => exact Nat.zero_le _
    | called => exact Nat.zero_le _
    | scan i tries count => exact Nat.zero_le _
    | process count => exact Nat.zero_le _
  refine ⟨hr, ?_, ?_⟩
  · cases hpc : s.segDrain with
    | idle => trivial
    | called => trivial
    | scan i tries count =>
      rw [hpc] at hdrain
      obtain ⟨hi, hcount, hle⟩ := hdrain
      exact ⟨by rw [hridx]; exact hi, hcount, by omega⟩
    | process count =>
      rw [hpc] at hdrain
      exact le_trans hdrain (by omega)
    | clear count =>
      rw [hpc] at hdrain
      exact le_trans hdrain (by omega)
  · unfold RxBand.segIds
    dsimp only
    rw [hcontents, List.drop_append_of_le_length hgiven, List.map_append, ← Multiset.coe_add]
    rfl

/-- The rx function's frame is queued. -/
theorem Keeps.queued {e : PiNode} {next : ℕ} {r : FlagRing PiNode} (hok : l.band.Ok b)
    (hpc : l.band.rx = .forward e next) (hput : l.band.wholes.put (wholeRing b) e = some r) :
    Keeps points b l
      { l with band := { l.band with wholes := r, rx := .idle, cpuIdx := next } } := by
  obtain ⟨hr, hgiven, hids⟩ := wholes_put hok hput
  have hrx := hok.rx
  rw [hpc] at hrx
  constructor
  · unfold RxLocal.total RxBand.held
    rw [hpc]
    show _ + (slotIds (Finset.range rxRing) l.band.tbl + 0 + l.band.segIds +
      RxBand.wholeIds b { l.band with wholes := r } + _) =
      _ + (slotIds (Finset.range rxRing) l.band.tbl + {e.bufId} + _ + _ + _)
    rw [hids]
    abel
  · exact ⟨hok.segs, hok.segDrain, hr, hgiven, trivial, hrx⟩
  · exact fun h j hj => h j (by rw [hpc]; exact hj)

/-- A segment is queued with the id of its slot. -/
theorem Keeps.segQueued {idx n len count id tries : ℕ} {seg : BitVec 8} {s : RxBand}
    (hok : l.band.Ok b) (hpc : l.band.rx = .seg idx n len count seg id tries)
    (hput : l.band.putSeg b idx len count seg = some s) :
    Keeps points b l { l with band := { s with rx := .refill idx n len count seg id } } := by
  have hidx : idx < rxRing := by
    have := hok.rx
    rw [hpc] at this
    exact this
  have hslot := slotIds_erase l.band.tbl (Finset.mem_range.mpr hidx)
  have harmed : (∀ i ∈ l.band.rx.live, l.band.ArmedAt points i) →
      ∀ i ∈ (Finset.range rxRing).erase idx, l.band.ArmedAt points i := fun h i hi =>
    h i (by rw [hpc]; exact Finset.mem_of_mem_erase hi)
  unfold RxBand.putSeg at hput
  dsimp only at hput
  split_ifs at hput with hpiece
  · -- a piece of a longer frame
    obtain ⟨r, hr, rfl⟩ := Option.map_eq_some_iff.mp hput
    obtain ⟨hring, hdrain, hids⟩ := segs_put hok hr
    refine ⟨?_, ⟨hring, hdrain, hok.wholes, hok.wholeDrain, hidx, hok.cpuIdx⟩, harmed⟩
    unfold RxLocal.total RxBand.held
    rw [hpc]
    show _ + (slotIds ((Finset.range rxRing).erase idx) l.band.tbl + {id} +
      RxBand.segIds { l.band with segs := r } + l.band.wholeIds b + _) =
      _ + (slotIds (Finset.range rxRing) l.band.tbl + {id} + _ + _ + _)
    rw [hids, hslot]
    abel
  · obtain ⟨r, hr, rfl⟩ := Option.map_eq_some_iff.mp hput
    obtain ⟨hring, hgiven, hids⟩ := wholes_put hok hr
    refine ⟨?_, ⟨hok.segs, hok.segDrain, hring, hgiven, hidx, hok.cpuIdx⟩, harmed⟩
    unfold RxLocal.total RxBand.held
    rw [hpc]
    show _ + (slotIds ((Finset.range rxRing).erase idx) l.band.tbl + {id} + l.band.segIds +
      RxBand.wholeIds b { l.band with wholes := r } + _) =
      _ + (slotIds (Finset.range rxRing) l.band.tbl + {id} + _ + _ + _)
    rw [hids, hslot]
    abel

/-- A segment core 3 has no room for to the last retry: its fresh id is
    lost. -/
theorem Keeps.lost {idx n len count id tries : ℕ} {seg : BitVec 8} (hok : l.band.Ok b)
    (hpc : l.band.rx = .seg idx n len count seg id tries) :
    Keeps points b l { l with band := { l.band with
      rx := .skip idx (n + 1), lost := l.band.lost ++ [id] } } where
  total := by
    unfold RxLocal.total RxBand.held
    rw [hpc]
    show _ + (slotIds (Finset.range rxRing) l.band.tbl + 0 + l.band.segIds + l.band.wholeIds b +
      ((l.band.lost ++ [id] : List ℕ) : Multiset ℕ)) =
      _ + (slotIds (Finset.range rxRing) l.band.tbl + {id} + _ + _ + _)
    rw [← Multiset.coe_add, Multiset.coe_singleton]
    abel
  ok := by
    have hrx := hok.rx
    rw [hpc] at hrx
    exact ⟨hok.segs, hok.segDrain, hok.wholes, hok.wholeDrain, hrx, hok.cpuIdx⟩
  armed h j hj := h j (by rw [hpc]; exact hj)

/-- The slot of a queued segment gets its fresh id. -/
theorem Keeps.refilled {idx n len count id : ℕ} {seg : BitVec 8} (hok : l.band.Ok b)
    (hpc : l.band.rx = .refill idx n len count seg id)
    (haddr : points id (pktVa cfg.pktBuf id)) :
    Keeps points b l { l with band := { l.band.arm idx id (pktVa cfg.pktBuf id) with
      rx := .segs (rxNext idx) n len count seg } } := by
  have hidx : idx < rxRing := by
    have := hok.rx
    rw [hpc] at this
    exact this
  constructor
  · unfold RxLocal.total RxBand.held
    rw [hpc]
    show _ + (slotIds (Finset.range rxRing) (Function.update l.band.tbl idx id) + 0 +
      l.band.segIds + l.band.wholeIds b + _) =
      _ + (slotIds ((Finset.range rxRing).erase idx) l.band.tbl + {id} + _ + _ + _)
    rw [slotIds_erase _ (Finset.mem_range.mpr hidx), slotIds_erase_update, Function.update_self]
    show _ + (_ + (l.band.lost : Multiset ℕ)) = _
    abel
  · exact ⟨hok.segs, hok.segDrain, hok.wholes, hok.wholeDrain, rxNext_lt hidx, hok.cpuIdx⟩
  · intro h j hj
    by_cases hji : j = idx
    · rw [hji]
      exact armedAt_arm l.band idx id _ haddr _ l.band.cpuIdx
    · refine armedAt_arm_of_ne hji (h j ?_) _ l.band.cpuIdx
      rw [hpc]
      exact Finset.mem_erase.mpr ⟨hji, hj⟩

/-- A frame of the walk ends inside the ring. -/
theorem kiteRxWalk_ridx {ring : ℕ → RxDesc} {ridx : ℕ} {fuel idx n len : ℕ} {visited : List ℕ}
    {r : RxFrame} (hidx : idx < rxRing) (hr : ridx < rxRing)
    (h : kiteRxWalk ring ridx fuel idx n len visited = some r) : r.ridx < rxRing := by
  induction fuel generalizing idx n len visited with
  | zero => cases h
  | succ fuel ih =>
    unfold kiteRxWalk at h
    dsimp only at h
    split_ifs at h
    · obtain rfl := Option.some.inj h
      exact hr
    · obtain rfl := Option.some.inj h
      exact hidx
    · exact ih (rxNext_lt hidx) h

/-- A frame found is taken up. -/
theorem Keeps.multi {len count : ℕ} (hok : l.band.Ok b) (hpc : l.band.rx = .called) :
    Keeps points b l (l.multi l.band.cpuIdx len count) := by
  have hlive : l.band.rx.live = Finset.range rxRing := by
    rw [hpc]
    rfl
  have hhand : l.band.rx.hand = 0 := by
    rw [hpc]
    rfl
  unfold RxLocal.multi
  dsimp only
  split_ifs <;> exact .goto hok hlive.symm hhand.symm hok.cpuIdx

/-- One step of the rx function keeps the ids and the descriptors. -/
theorem rxStep_keeps {id : Option ℕ} {v : RxVerdict} (hok : l.band.Ok b)
    (harms : l.band.Arms cfg points) (hw : l.pipe.widx < kitePipeEntries)
    (h : rxStep cfg b id v l = some l') : Keeps points b l l' := by
  have hrx := hok.rx
  unfold rxStep at h
  dsimp only at h
  cases hpc : l.band.rx with
  | idle =>
    rw [hpc] at h
    dsimp only at h
    split_ifs at h
    obtain rfl := Option.some.inj h
    exact .goto hok (by rw [hpc]; rfl) (by rw [hpc]; rfl) trivial
  | called =>
    rw [hpc] at h
    dsimp only at h
    cases hwalk : kiteRxFrame l.band.desc l.band.cpuIdx rxRing with
    | none =>
      rw [hwalk] at h
      cases h
    | some r =>
      rw [hwalk] at h
      dsimp only at h
      split_ifs at h with h0 h1
      · obtain rfl := Option.some.inj h
        exact .goto hok (by rw [hpc]; rfl) (by rw [hpc]; rfl) trivial
      · obtain rfl := Option.some.inj h
        exact .goto hok (by rw [hpc]; rfl) (by rw [hpc]; rfl)
          (kiteRxWalk_ridx hok.cpuIdx hok.cpuIdx hwalk)
      · obtain rfl := Option.some.inj h
        exact .multi hok hpc
  | single ridx len =>
    rw [hpc] at h hrx
    rcases alloc_cases h with rfl | ⟨id, hid, rfl⟩
    · exact .moved hok (by rw [hpc]; rfl) (by rw [hpc]; rfl) trivial (rxNext_lt hrx)
        (rearmed_update l.band.desc ridx)
    · exact .swapped hok hpc hid (harms.dma id)
  | classify old len =>
    rw [hpc] at h
    cases v with
    | taken =>
      obtain rfl := Option.some.inj h
      exact .taken hok hpc
    | left alone =>
      obtain rfl := Option.some.inj h
      exact .goto hok (by rw [hpc]; rfl) (by rw [hpc]; rfl) hok.cpuIdx
    | piped =>
      dsimp only at h
      split_ifs at h
      cases hput : l.pipe.put kitePipeEntries old with
      | none =>
        rw [hput] at h
        obtain rfl := Option.some.inj h
        exact .goto hok (by rw [hpc]; rfl) (by rw [hpc]; rfl) hok.cpuIdx
      | some r =>
        rw [hput] at h
        obtain rfl := Option.some.inj h
        exact .piped hok hpc hw hput
  | forward e next =>
    rw [hpc] at h hrx
    dsimp only at h
    cases hput : l.band.wholes.put (wholeRing b) e with
    | none =>
      rw [hput] at h
      obtain rfl := Option.some.inj h
      exact .goto hok (by rw [hpc]; rfl) (by rw [hpc]; rfl) hrx
    | some r =>
      rw [hput] at h
      obtain rfl := Option.some.inj h
      exact .queued hok hpc hput
  | giveBack id next =>
    rw [hpc] at h
    obtain rfl := Option.some.inj h
    exact .givenBack hok hpc
  | skip idx n =>
    rw [hpc] at h hrx
    cases n with
    | zero =>
      obtain rfl := Option.some.inj h
      exact .done hok (by rw [hpc]; rfl) (by rw [hpc]; rfl) hrx
    | succ n =>
      obtain rfl := Option.some.inj h
      exact .moved hok (by rw [hpc]; rfl) (by rw [hpc]; rfl) (rxNext_lt hrx) hok.cpuIdx
        (rearmed_update l.band.desc idx)
  | segs idx n len count seg =>
    rw [hpc] at h hrx
    cases n with
    | zero =>
      obtain rfl := Option.some.inj h
      exact .done hok (by rw [hpc]; rfl) (by rw [hpc]; rfl) hrx
    | succ n =>
      rcases alloc_cases h with rfl | ⟨id, hid, rfl⟩
      · exact .goto hok (by rw [hpc]; rfl) (by rw [hpc]; rfl) hrx
      · exact .allocated hok hid (by rw [hpc]; rfl) (by rw [hpc]; rfl) rfl hrx
  | seg idx n len count seg id tries =>
    rw [hpc] at h hrx
    dsimp only at h
    cases hput : l.band.putSeg b idx len count seg with
    | none =>
      rw [hput] at h
      dsimp only at h
      split_ifs at h
      · obtain rfl := Option.some.inj h
        exact .lost hok hpc
      · obtain rfl := Option.some.inj h
        exact .goto hok (by rw [hpc]; rfl) (by rw [hpc]; rfl) hrx
    | some s =>
      rw [hput] at h
      obtain rfl := Option.some.inj h
      exact .segQueued hok hpc hput
  | refill idx n len count seg id =>
    rw [hpc] at h
    obtain rfl := Option.some.inj h
    exact .refilled hok hpc (harms.va idx n len count seg id hpc)
  | copyAlloc idx n len =>
    rw [hpc] at h hrx
    rcases alloc_cases h with rfl | ⟨id, hid, rfl⟩
    · exact .goto hok (by rw [hpc]; rfl) (by rw [hpc]; rfl) hrx
    · exact .allocated hok hid (by rw [hpc]; rfl) (by rw [hpc]; rfl) rfl hrx
  | copy idx n len id =>
    rw [hpc] at h hrx
    cases n with
    | zero =>
      obtain rfl := Option.some.inj h
      exact .goto hok (by rw [hpc]; rfl) (by rw [hpc]; rfl) hrx
    | succ n =>
      obtain rfl := Option.some.inj h
      exact .moved hok (by rw [hpc]; rfl) (by rw [hpc]; rfl) (rxNext_lt hrx) hok.cpuIdx
        (rearmed_update l.band.desc idx)

/-! ## The drains -/

/-- A move of the segment drain that gives nothing back. -/
theorem Keeps.segsAt {pc : SegDrainPc} (hok : l.band.Ok b) (hpc : pc.Ok l.band.segs)
    (hgiven : pc.given = l.band.segDrain.given) : Keeps points b l (l.segsAt pc) where
  total := by
    unfold RxLocal.total RxBand.held RxBand.segIds RxLocal.segsAt
    dsimp only
    rw [hgiven]
    rfl
  ok := ⟨hok.segs, hpc, hok.wholes, hok.wholeDrain, hok.rx, hok.cpuIdx⟩
  armed h := h

/-- The same for the drain of the whole frames. -/
theorem Keeps.wholesAt {pc : WholeDrainPc} (hok : l.band.Ok b)
    (hgiven : pc.given = l.band.wholeDrain.given) :
    Keeps points b l { l with band := { l.band with wholeDrain := pc } } where
  total := by
    unfold RxLocal.total RxBand.held RxBand.wholeIds
    dsimp only
    rw [hgiven]
    rfl
  ok := ⟨hok.segs, hok.segDrain, hok.wholes, by rw [hgiven]; exact hok.wholeDrain, hok.rx,
    hok.cpuIdx⟩
  armed h := h

/-- The ring from its read index on -/
theorem ok_head {E : Type*} {n : ℕ} {r : FlagRing E} (h : r.Ok n)
    (hpos : 0 < (r.contents n).length) :
    ∃ e, r.slot r.ridx = some e ∧ r.contents n = e :: (r.pop n).contents n := by
  cases hslot : r.slot r.ridx with
  | none =>
    have hhead := h.head
    rw [hslot] at hhead
    have hnil := List.head?_eq_none_iff.mp hhead.symm
    rw [hnil] at hpos
    cases hpos
  | some e => exact ⟨e, rfl, (h.pop hslot).2⟩

theorem segDrainStep_keeps (hok : l.band.Ok b) (h : segDrainStep cfg l = some l') :
    Keeps points b l l' := by
  have hdrain := hok.segDrain
  have hridx : l.band.segs.ridx < rxnodeRingSize := FlagRing.Holds.ridx_lt hok.segs
  have hmax : (l.band.segs.contents rxnodeRingSize).length ≤ rxnodeRingSize :=
    FlagRing.Holds.length_le hok.segs
  have hring : rxnodeRingSize = 128 := rfl
  unfold segDrainStep at h
  dsimp only at h
  cases hpc : l.band.segDrain with
  | idle =>
    rw [hpc] at h
    dsimp only at h
    split_ifs at h
    obtain rfl := Option.some.inj h
    exact .segsAt hok trivial (by rw [hpc]; rfl)
  | called =>
    rw [hpc] at h
    dsimp only at h
    split at h
    · obtain rfl := Option.some.inj h
      exact .segsAt hok trivial (by rw [hpc]; rfl)
    · obtain rfl := Option.some.inj h
      refine .segsAt hok ⟨?_, by decide, Nat.zero_le _⟩ (by rw [hpc]; rfl)
      rw [Nat.add_zero, Nat.mod_eq_of_lt hridx]
  | scan i tries count =>
    rw [hpc] at h hdrain
    obtain ⟨hi, hcount, hle⟩ := hdrain
    dsimp only at h
    cases hslot : l.band.segs.slot i with
    | none =>
      rw [hslot] at h
      dsimp only at h
      split_ifs at h
      · obtain rfl := Option.some.inj h
        exact .segsAt hok hle (by rw [hpc]; rfl)
      · obtain rfl := Option.some.inj h
        exact .segsAt hok ⟨hi, hcount, hle⟩ (by rw [hpc]; rfl)
    | some node =>
      -- a filled slot: one more segment of the ring is counted
      have hmore : count + 1 ≤ (l.band.segs.contents rxnodeRingSize).length := by
        rw [hi, hok.segs.slot_eq (by omega)] at hslot
        obtain ⟨hlt, -⟩ := List.getElem?_eq_some_iff.mp hslot
        omega
      have hnext : (count + 1) % 2 ^ 16 = count + 1 := Nat.mod_eq_of_lt (by omega)
      have htotal := flags_total_lt node.flags
      rw [hslot] at h
      dsimp only at h
      rw [hnext] at h
      split_ifs at h with h1 h2 h3
      · obtain rfl := Option.some.inj h
        exact .segsAt hok hmore (by rw [hpc]; rfl)
      · obtain rfl := Option.some.inj h
        exact .segsAt hok hle (by rw [hpc]; rfl)
      · obtain rfl := Option.some.inj h
        exact .segsAt hok hmore (by rw [hpc]; rfl)
      · obtain rfl := Option.some.inj h
        refine .segsAt hok ⟨?_, by omega, hmore⟩ (by rw [hpc]; rfl)
        rw [hi]
        unfold rxnodeNext rxnodeRingSize
        split_ifs <;> omega
  | process count =>
    rw [hpc] at h hdrain
    cases count with
    | zero =>
      obtain rfl := Option.some.inj h
      exact .segsAt hok trivial (by rw [hpc]; rfl)
    | succ count =>
      obtain rfl := Option.some.inj h
      obtain ⟨e, hslot, hcontents⟩ := ok_head hok.segs (Nat.lt_of_lt_of_le (Nat.succ_pos _) hdrain)
      refine ⟨?_, ⟨hok.segs, hdrain, hok.wholes, hok.wholeDrain, hok.rx, hok.cpuIdx⟩, fun h => h⟩
      have hids : l.band.segIds = {e.bufId} +
          RxBand.segIds { l.band with segDrain := .clear count } := by
        unfold RxBand.segIds
        rw [hpc]
        dsimp only [SegDrainPc.given]
        rw [hcontents, List.drop_zero, List.map_cons, ← Multiset.cons_coe,
          ← Multiset.singleton_add]
        rfl
      unfold RxLocal.total RxBand.held RxLocal.segsAt
      dsimp only
      rw [hids, hslot]
      show (e.bufId ::ₘ l.pool) + _ + _ + (_ + _ + _ + l.band.wholeIds b + _) = _
      rw [← Multiset.singleton_add]
      abel
  | clear count =>
    rw [hpc] at h hdrain
    obtain rfl := Option.some.inj h
    obtain ⟨e, hslot, hcontents⟩ := ok_head hok.segs (Nat.lt_of_lt_of_le (Nat.succ_pos _) hdrain)
    have hpop := (hok.segs.pop hslot).1
    refine ⟨?_, ⟨hpop, ?_, hok.wholes, hok.wholeDrain, hok.rx, hok.cpuIdx⟩, fun h => h⟩
    · have hids : l.band.segIds = RxBand.segIds { l.band with
          segs := l.band.segs.pop rxnodeRingSize, segDrain := .process count } := by
        unfold RxBand.segIds
        rw [hpc, hcontents]
        rfl
      unfold RxLocal.total RxBand.held
      rw [hids]
      rfl
    · show count ≤ ((l.band.segs.pop rxnodeRingSize).contents rxnodeRingSize).length
      have hlen := congrArg List.length hcontents
      rw [List.length_cons] at hlen
      change count + 1 ≤ _ at hdrain
      omega

theorem wholeDrainStep_keeps (hok : l.band.Ok b) (h : wholeDrainStep b l = some l') :
    Keeps points b l l' := by
  unfold wholeDrainStep at h
  dsimp only at h
  cases hpc : l.band.wholeDrain with
  | idle =>
    rw [hpc] at h
    dsimp only at h
    split_ifs at h
    obtain rfl := Option.some.inj h
    exact .wholesAt hok (by rw [hpc]; rfl)
  | called =>
    rw [hpc] at h
    dsimp only at h
    cases hslot : l.band.wholes.slot l.band.wholes.ridx with
    | none =>
      rw [hslot] at h
      obtain rfl := Option.some.inj h
      exact .wholesAt hok (by rw [hpc]; rfl)
    | some e =>
      have hcontents := (hok.wholes.pop hslot).2
      have hone : 1 ≤ (l.band.wholes.contents (wholeRing b)).length := by
        rw [hcontents]
        exact Nat.succ_pos _
      have hids : l.band.wholeIds b = {e.bufId} +
          RxBand.wholeIds b { l.band with wholeDrain := .clear } := by
        unfold RxBand.wholeIds
        rw [hpc]
        dsimp only [WholeDrainPc.given]
        rw [hcontents, List.drop_zero, List.map_cons, ← Multiset.cons_coe,
          ← Multiset.singleton_add]
        rfl
      rw [hslot] at h
      dsimp only at h
      split_ifs at h
      · -- a frame of length 0 is not given back
        obtain rfl := Option.some.inj h
        refine ⟨?_, ⟨hok.segs, hok.segDrain, hok.wholes, hone, hok.rx, hok.cpuIdx⟩, fun h => h⟩
        unfold RxLocal.total RxBand.held
        rw [hids]
        show _ + (_ + l.band.segIds + RxBand.wholeIds b { l.band with wholeDrain := .clear } +
          ((l.band.lost ++ [e.bufId] : List ℕ) : Multiset ℕ)) = _
        rw [← Multiset.coe_add, Multiset.coe_singleton]
        abel
      · obtain rfl := Option.some.inj h
        refine ⟨?_, ⟨hok.segs, hok.segDrain, hok.wholes, hone, hok.rx, hok.cpuIdx⟩, fun h => h⟩
        unfold RxLocal.total RxBand.held
        rw [hids]
        show (e.bufId ::ₘ l.pool) + _ + _ +
          (_ + l.band.segIds + RxBand.wholeIds b { l.band with wholeDrain := .clear } + _) = _
        rw [← Multiset.singleton_add]
        abel
  | clear =>
    rw [hpc] at h
    obtain rfl := Option.some.inj h
    have hdrain := hok.wholeDrain
    rw [hpc] at hdrain
    obtain ⟨e, hslot, hcontents⟩ := ok_head hok.wholes hdrain
    refine ⟨?_, ⟨hok.segs, hok.segDrain, (hok.wholes.pop hslot).1, Nat.zero_le _, hok.rx,
      hok.cpuIdx⟩, fun h => h⟩
    have hids : l.band.wholeIds b = RxBand.wholeIds b { l.band with
        wholes := l.band.wholes.pop (wholeRing b), wholeDrain := .idle } := by
      unfold RxBand.wholeIds
      rw [hpc, hcontents]
      rfl
    unfold RxLocal.total RxBand.held
    rw [hids]
    rfl

end ClankerNPU.Kite
