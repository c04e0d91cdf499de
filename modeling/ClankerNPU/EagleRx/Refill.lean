import ClankerNPU.Lib.FlagRing
import ClankerNPU.Lib.StepSystem
import ClankerNPU.Words
import Mathlib.Data.BitVec

/-! # Keeping the rx rings stocked

    Each band has a ring of rx descriptors. The WiFi chip fills the
    buffers of armed descriptors in ring order and hands each one back
    with bit 31 of its control word set; a sweep puts a fresh buffer
    under every descriptor handed back, in ring order from its cursor,
    and stores the cpu index to the chip every 128 buffers. A SET_DESC
    mail of the host fills the whole ring anew. The chip restarts a ring
    that is filled anew at slot 0. Both builds' sweeps are here: one id
    at a time, and up to 32 ids a lock. -/

open Circular

namespace ClankerNPU.EagleRx.Refill

/-! ## State -/

/-- `EAGLE_RX_RING_MAX_IDX` -/
def eagleRxRingMaxIdx : ℕ := 1535

/-- `EAGLE_REFILL_BUDGET` -/
def eagleRefillBudget : ℕ := 1536

/-- `EAGLE_RX_DESC_CTRL` -/
def eagleRxDescCtrl : BitVec 32 := 0x07000100#32

/-- `eagle_buf_phys`, with `eagle_pkt_buf_addr` as `base` -/
def eagleBufPhys (base : BitVec 32) (bufId : BitVec 16) : BitVec 32 :=
  ((((bufId.setWidth 32 <<< 11) + base) &&& 0x3FFFFFFF#32) ||| 0x80000000#32) + 192#32

/-- The four words of an rx descriptor. -/
structure Desc where
  addr : BitVec 32
  ctrl : BitVec 32
  id : BitVec 32
  word3 : BitVec 32
  deriving DecidableEq

/-- `(s32)REG32(desc + 4) >= 0`: the chip has not handed it back. -/
def Desc.armed (d : Desc) : Bool := !d.ctrl.msb

/-- A band's descriptors with the ids recorded for them, where the chip
    stands, and the slots it has handed back, oldest first. -/
structure RxRing where
  desc : ℕ → Desc
  /-- `eagle_rx_ring_bufid` -/
  bufid : ℕ → BitVec 16
  /-- `eagle_rx_ring_size` -/
  size : ℕ
  chip : ℕ
  handed : List ℕ

/-- Where a sweep stands. -/
inductive SweepPc where
  | idle
  /-- single ids: about to look at the slot at the cursor -/
  | test (budget : ℕ)
  /-- single ids: about to take an id for the slot -/
  | refill (budget : ℕ)
  /-- single ids: about to arm the slot -/
  | put (budget : ℕ) (id : BitVec 16)
  /-- batch: `want` slots counted, about to look at slot `j` -/
  | scan (budget want j : ℕ)
  /-- batch: about to take the ids -/
  | take (budget want : ℕ)
  /-- batch: `got` ids taken, `ids` not yet in a slot -/
  | fill (budget want got : ℕ) (ids : List (BitVec 16))
  deriving DecidableEq

/-- All that the refill of one band reads and writes. -/
structure Band extends RxRing where
  /-- `eagle_rx_ring_ridx`, the cursor between sweeps -/
  ridx : ℕ
  /-- `eagle_rx_ring_kick` -/
  kick : BitVec 8
  /-- `eagle_rx_ring_cpu_idx` -/
  cpuIdx : ℕ
  initDone : Bool
  /-- `dbg.refill` -/
  refilled : BitVec 32
  pc : SweepPc
  /-- the sweep's `idx` -/
  idx : ℕ
  /-- the batch sweep's `size` -/
  sweepSize : ℕ
  /-- the cpu index the band's last step stored to the chip -/
  posted : Option ℕ

/-! ## Refilling -/

/-- The index after `i`. -/
def slotAfter (size i : ℕ) : ℕ := if i + 1 < size then i + 1 else 0

/-- Put the buffer under slot `i` and give the slot to the chip. -/
def RxRing.arm (r : RxRing) (base : BitVec 32) (i : ℕ) (id : BitVec 16) (word3 : BitVec 32) :
    RxRing :=
  { r with
    bufid := Function.update r.bufid i id
    desc := Function.update r.desc i
      ⟨eagleBufPhys base id, eagleRxDescCtrl, id.setWidth 32 <<< 16, word3⟩
    handed := r.handed.filter (· ≠ i) }

/-- Count slot `i` as refilled; every 128 publish it. -/
def Band.publish (b : Band) (i : ℕ) : Band :=
  if (b.kick + 1#8).msb then { b with kick := 0#8, posted := some i }
  else { b with kick := b.kick + 1#8 }

/-- Arm the slot at the cursor and move the cursor on; `size` is where
    the sweep has the ring's size from. -/
def Band.armNext (b : Band) (base : BitVec 32) (size : ℕ) (id : BitVec 16) : Band :=
  { (b.publish b.idx) with
    toRxRing := b.toRxRing.arm base b.idx id (b.desc b.idx).word3
    idx := slotAfter size b.idx }

/-- The end of a sweep stores the cursor. -/
def Band.leave (b : Band) : Band := { b with ridx := b.idx, pc := .idle }

/-- A sweep of `eagle_rx_ring_sweep` begins. -/
def Band.start (b : Band) (batch : Bool) : Band :=
  { b with
    idx := b.ridx
    sweepSize := b.size
    pc := if batch then .scan eagleRefillBudget 0 b.ridx else .test eagleRefillBudget }

/-- The next step of a sweep over the free ids. -/
def Band.sweep (base : BitVec 32) (b : Band) (free : List (BitVec 16)) :
    Band × List (BitVec 16) :=
  match b.pc with
  | .idle => (b, free)
  | .test budget =>
    if budget = 0 ∨ (b.desc b.idx).armed then (b.leave, free)
    else ({ b with pc := .refill (budget - 1) }, free)
  | .refill budget =>
    match free with
    | [] => (b.leave, [])
    | id :: rest => ({ b with pc := .put budget id }, rest)
  | .put budget id =>
    ({ (b.armNext base b.size id) with refilled := b.refilled + 1, pc := .test budget }, free)
  | .scan budget want j =>
    if want < 32 ∧ want < budget ∧ (b.desc j).armed = false then
      ({ b with pc := .scan budget (want + 1) (slotAfter b.sweepSize j) }, free)
    else if want = 0 then (b.leave, free)
    else ({ b with pc := .take budget want }, free)
  | .take budget want =>
    -- a short supply gives what there is
    ({ b with pc := .fill budget want (free.take want).length (free.take want) }, free.drop want)
  | .fill budget want got (id :: ids) =>
    ({ (b.armNext base b.sweepSize id) with pc := .fill budget want got ids }, free)
  | .fill budget want got [] =>
    let b := { b with refilled := b.refilled + BitVec.ofNat 32 got }
    if got < want ∨ budget - got = 0 then (b.leave, free)
    else ({ b with pc := .scan (budget - got) 0 b.idx }, free)

/-! ## Filling a ring anew -/

/-- The size `eagle_rx_ring_init` takes for the one in the mail. -/
def ringSize (n : ℕ) : ℕ :=
  if u32 ((n : ℤ) - 1) > eagleRxRingMaxIdx then eagleRxRingMaxIdx + 1 else n

/-- The loop of `eagle_rx_ring_init` over `n` more slots from slot `i`. -/
def initLoop (base : BitVec 32) : ℕ → ℕ → Band → List (BitVec 16) →
    (Band × List (BitVec 16)) × ℕ
  | 0, _, b, free => ((b, free), 0)
  | _ + 1, _, b, [] => ((b, []), 1)
  | n + 1, i, b, id :: rest =>
    initLoop base n (i + 1)
      { b with toRxRing := b.toRxRing.arm base i id 0, refilled := b.refilled + 1 } rest

/-- `eagle_rx_ring_init`. The chip restarts the ring at slot 0; slots
    beyond the new size are no longer its. -/
def Band.ringInit (base : BitVec 32) (b : Band) (n : ℕ) (free : List (BitVec 16)) :
    Band × List (BitVec 16) :=
  let size := ringSize n
  let b := { b with size := size, chip := 0, handed := b.handed.filter (· < size) }
  match initLoop base size 0 b free with
  | (r, 0) => ({ r.1 with cpuIdx := 0, initDone := true }, r.2)
  | (r, _) => r

/-! ## All runs -/

/-- Both bands and the free ids of `buf_id_alloc_ring`, next first. -/
structure RefillState where
  band : Bool → Band
  free : List (BitVec 16)

/-- Band `k` goes on to `r.1` and leaves the free ids `r.2`. -/
def RefillState.put (s : RefillState) (k : Bool) (r : Band × List (BitVec 16)) : RefillState :=
  ⟨Function.update s.band k r.1, r.2⟩

/-- The chip hands back the slot it stands at, with the words `d`. -/
def RxRing.handBack (r : RxRing) (d : Desc) : RxRing :=
  { r with
    desc := Function.update r.desc r.chip d
    chip := slotAfter r.size r.chip
    handed := r.handed ++ [r.chip] }

/-- The ids a sweep has taken and not yet armed. -/
def SweepPc.hands : SweepPc → List (BitVec 16)
  | .put _ id => [id]
  | .fill _ _ _ ids => ids
  | _ => []

/-- The id is under an armed slot of the band or in its sweep's hands. -/
def Band.Owns (b : Band) (id : BitVec 16) : Prop :=
  (∃ i < b.size, (b.desc i).armed = true ∧ b.bufid i = id) ∨ id ∈ b.pc.hands

/-- The chip hands a slot back, a sweep begins or does its next step, a
    SET_DESC mail arrives; some id not in use comes back to the pool, or
    another user takes the next one. -/
inductive RefillAction where
  | chip (k : Bool) (d : Desc)
  | start (k : Bool) (batch : Bool)
  | sweep (k : Bool)
  | setDesc (k : Bool) (n : ℕ)
  | give (id : BitVec 16)
  | taken

/-- All runs of the refill. Sweeps wait for the ring's first filling. -/
def refillSystem (base : BitVec 32) : StepSystem RefillState RefillAction where
  init := fun s =>
    s.free.Nodup ∧ ∀ k, (s.band k).size = 0 ∧ (s.band k).ridx = 0 ∧ (s.band k).kick = 0 ∧
      (s.band k).initDone = false ∧ (s.band k).pc = .idle ∧ (s.band k).chip = 0 ∧
      (s.band k).handed = [] ∧ (s.band k).posted = none
  step := fun s a s' =>
    match a with
    | .chip k d =>
      let b := s.band k
      b.chip < b.size ∧ (b.desc b.chip).armed = true ∧ d.armed = false ∧
        s' = s.put k ({ b with toRxRing := b.handBack d, posted := none }, s.free)
    | .start k batch =>
      let b := s.band k
      b.pc = .idle ∧ b.initDone = true ∧
        s' = s.put k ({ b with posted := none }.start batch, s.free)
    | .sweep k => s' = s.put k ({ s.band k with posted := none }.sweep base s.free)
    | .setDesc k n => s' = s.put k ({ s.band k with posted := none }.ringInit base n s.free)
    | .give id =>
      id ∉ s.free ∧ (∀ k, ¬(s.band k).Owns id) ∧ s' = { s with free := s.free ++ [id] }
    | .taken => s' = { s with free := s.free.tail }

/-! ## Order -/

/-- The slot the sweep's next step arms. -/
def Band.arming (b : Band) : Option ℕ :=
  match b.pc with
  | .put _ _ => some b.idx
  | .fill _ _ _ (_ :: _) => some b.idx
  | _ => none

/-- The refill of both bands is in order. -/
structure RefillOrder (base : BitVec 32) (s : RefillState) : Prop where
  /-- a refill arms the slot that was handed back first -/
  oldest : ∀ k i, (s.band k).arming = some i → (s.band k).handed.head? = some i
  /-- an armed slot carries the buffer of the id recorded for it -/
  address : ∀ k, ∀ i < (s.band k).size, ((s.band k).desc i).armed = true →
    ((s.band k).desc i).addr = eagleBufPhys base ((s.band k).bufid i)
  /-- no two armed slots of either ring have one id -/
  distinct : ∀ k k', ∀ i < (s.band k).size, ∀ i' < (s.band k').size,
    ((s.band k).desc i).armed = true → ((s.band k').desc i').armed = true →
    (s.band k).bufid i = (s.band k').bufid i' → k = k' ∧ i = i'
  /-- all slots from the chip's up to a published one are armed -/
  published : ∀ k i, (s.band k).posted = some i →
    ∃ m < (s.band k).size, i = ((s.band k).chip + m) % (s.band k).size ∧
      ∀ j ≤ m, ((s.band k).desc (((s.band k).chip + j) % (s.band k).size)).armed = true

/-- The cursor is at slot 0 when the mail comes: no sweep is under way
    and the last one stopped there, or one has begun there and found no
    slot handed back. -/
def Band.AtStart (b : Band) (size : ℕ) : Prop :=
  match b.pc with
  | .idle => b.ridx = 0
  | .test _ => b.idx = 0
  | .scan _ want j => b.idx = 0 ∧ want = 0 ∧ j = 0 ∧ b.sweepSize = size
  | _ => False

/-- A SET_DESC mail finds the cursor at slot 0, and the ids last for the
    whole ring, or else for its slots up to ones that are still armed. A
    batch sweep does not count a ring of fewer than 32 slots more than
    once round. -/
def refillGuard (s : RefillState) (a : RefillAction) : Prop :=
  match a with
  | .sweep k => ∀ budget want j, (s.band k).pc = .scan budget want j → want < 32 →
      want < budget → want < (s.band k).size
  | .setDesc k n =>
    (s.band k).AtStart (ringSize n) ∧
      (ringSize n ≤ s.free.length ∨ ringSize n ≤ (s.band k).size ∧
        ∀ i < ringSize n, s.free.length ≤ i → ((s.band k).desc i).armed = true)
  | _ => True

/-! ## One ring -/

/-- The ring read as slots that carry their own index when the chip has
    handed them back: the chip puts, the cursor takes. -/
def RxRing.view (r : RxRing) (cursor : ℕ) : FlagRing ℕ where
  slot := fun i => if (r.desc i).armed then none else some i
  widx := r.chip
  ridx := cursor

/-- The slots handed back lie in order from the cursor up to the chip,
    and the armed ones carry the buffers recorded for them. -/
structure Sound (base : BitVec 32) (r : RxRing) (cursor : ℕ) : Prop where
  ring : (r.view cursor).Holds r.size r.handed
  address : ∀ i < r.size, (r.desc i).armed = true → (r.desc i).addr = eagleBufPhys base (r.bufid i)

/-- The ids of the armed slots among the `live` ones, those in hand and
    the free ones are all apart. -/
structure Apart (r : RxRing) (live : ℕ → Prop) (hands free : List (BitVec 16)) : Prop where
  distinct : ∀ i j, live i → live j → (r.desc i).armed = true → (r.desc j).armed = true →
    r.bufid i = r.bufid j → i = j
  nodup : (hands ++ free).Nodup
  unused : ∀ i, live i → (r.desc i).armed = true → r.bufid i ∉ hands ++ free

variable {base : BitVec 32} {r : RxRing} {c i n : ℕ} {q : List ℕ} {d : Desc} {id : BitVec 16}
  {hands free : List (BitVec 16)} {live live' : ℕ → Prop}

theorem slotAfter_eq {size i : ℕ} (h : i < size) : slotAfter size i = (i + 1) % size := by
  unfold slotAfter
  split
  · next hlt => rw [Nat.mod_eq_of_lt hlt]
  · have hlast : i + 1 = size := by omega
    rw [hlast, Nat.mod_self]

theorem slotAfter_eq_next {size i : ℕ} (h : i < size) : slotAfter size i = next (size - 1) i := by
  rw [slotAfter_eq h, next_pred_eq_mod h]

theorem view_slot_none : (r.view c).slot i = none ↔ (r.desc i).armed = true := by
  show (if (r.desc i).armed then none else some i) = none ↔ _
  cases (r.desc i).armed <;> simp

theorem view_slot_some {j : ℕ} (h : (r.view c).slot i = some j) :
    (r.desc i).armed = false ∧ j = i := by
  have hview : (if (r.desc i).armed then none else some i) = some j := h
  cases harmed : (r.desc i).armed with
  | true => rw [harmed] at hview; cases hview
  | false =>
    rw [harmed] at hview
    exact ⟨rfl, (Option.some.inj hview).symm⟩

theorem view_eq {ring : FlagRing ℕ} (hslot : ∀ i, (r.view c).slot i = ring.slot i)
    (hchip : r.chip = ring.widx) (hcursor : c = ring.ridx) : r.view c = ring := by
  obtain ⟨slot, widx, ridx⟩ := ring
  have hfun : (r.view c).slot = slot := funext hslot
  subst hchip
  subst hcursor
  rw [← hfun]
  rfl

/-- The oldest slot handed back is the one at the cursor. -/
theorem Sound.head (h : Sound base r c) (hq : r.handed ≠ []) :
    r.handed.head? = some c ∧ (r.desc c).armed = false := by
  have hhead := h.ring.head
  cases hc : r.handed with
  | nil => exact absurd hc hq
  | cons e q =>
    rw [hc, List.head?_cons] at hhead
    obtain ⟨hfree, rfl⟩ := view_slot_some hhead
    exact ⟨rfl, hfree⟩

/-- A slot some way behind the cursor that is not armed is among those
    handed back. -/
theorem Sound.lt_of_not_armed (h : Sound base r c) {j : ℕ} (hj : j < r.size)
    (hfree : (r.desc ((c + j) % r.size)).armed = false) : j < r.handed.length := by
  have hslot := h.ring.slot_eq j hj
  by_contra hge
  rw [List.getElem?_eq_none (by omega)] at hslot
  have harm : (r.desc ((c + j) % r.size)).armed = true := view_slot_none.mp hslot
  rw [harm] at hfree
  cases hfree

theorem armed_of_handBack (hd : d.armed = false)
    (harm : ((r.handBack d).desc i).armed = true) : i ≠ r.chip ∧ (r.desc i).armed = true := by
  have hne : i ≠ r.chip := by
    intro heq
    subst heq
    have hself : (Function.update r.desc r.chip d r.chip).armed = true := harm
    rw [Function.update_self, hd] at hself
    cases hself
  have hsame : (r.handBack d).desc i = r.desc i := Function.update_of_ne hne _ _
  rw [hsame] at harm
  exact ⟨hne, harm⟩

/-- The chip hands a slot back. -/
theorem Sound.handBack (h : Sound base r c) (hchip : r.chip < r.size)
    (harmed : (r.desc r.chip).armed = true) (hd : d.armed = false) :
    Sound base (r.handBack d) c := by
  have hput : (r.view c).put r.size r.chip = some ((r.handBack d).view c) := by
    unfold FlagRing.put
    have hnone : (r.view c).slot (r.view c).widx = none := view_slot_none.mpr harmed
    rw [hnone, if_neg (by simp)]
    apply congrArg some
    symm
    apply view_eq
    · intro i
      show (if (Function.update r.desc r.chip d i).armed then none else some i) =
        Function.update (r.view c).slot r.chip (some r.chip) i
      by_cases hi : i = r.chip
      · subst hi
        rw [Function.update_self, Function.update_self, hd, if_neg (by simp)]
      · rw [Function.update_of_ne hi, Function.update_of_ne hi]
        rfl
    · exact slotAfter_eq_next hchip
    · rfl
  refine ⟨h.ring.put hput, ?_⟩
  intro i hi harm
  obtain ⟨hne, hold⟩ := armed_of_handBack hd harm
  have hsame : (r.handBack d).desc i = r.desc i := Function.update_of_ne hne _ _
  rw [hsame]
  exact h.address i hi hold

theorem arm_desc_self (word3 : BitVec 32) :
    (r.arm base i id word3).desc i =
      ⟨eagleBufPhys base id, eagleRxDescCtrl, id.setWidth 32 <<< 16, word3⟩ :=
  Function.update_self _ _ _

theorem arm_desc_of_ne {j : ℕ} (h : j ≠ i) (word3 : BitVec 32) :
    (r.arm base i id word3).desc j = r.desc j :=
  Function.update_of_ne h _ _

theorem arm_bufid_self (word3 : BitVec 32) : (r.arm base i id word3).bufid i = id :=
  Function.update_self _ _ _

theorem arm_bufid_of_ne {j : ℕ} (h : j ≠ i) (word3 : BitVec 32) :
    (r.arm base i id word3).bufid j = r.bufid j :=
  Function.update_of_ne h _ _

theorem armed_arm_self (word3 : BitVec 32) :
    ((r.arm base i id word3).desc i).armed = true := by
  rw [arm_desc_self]
  show (!eagleRxDescCtrl.msb) = true
  decide

theorem address_arm (word3 : BitVec 32)
    (h : (r.desc n).armed = true → (r.desc n).addr = eagleBufPhys base (r.bufid n)) :
    ((r.arm base i id word3).desc n).armed = true →
      ((r.arm base i id word3).desc n).addr =
        eagleBufPhys base ((r.arm base i id word3).bufid n) := by
  intro harm
  by_cases hi : n = i
  · subst hi
    rw [arm_desc_self, arm_bufid_self]
  · rw [arm_desc_of_ne hi] at harm ⊢
    rw [arm_bufid_of_ne hi]
    exact h harm

/-- The tail of the slots handed back does not name the cursor's again. -/
theorem Sound.not_mem_tail (h : Sound base r c) (hq : r.handed = c :: q) : c ∉ q := by
  intro hmem
  obtain ⟨j, hj, hc⟩ := List.getElem_of_mem hmem
  have hle := h.ring.length_le
  rw [hq, List.length_cons] at hle
  have hslot := h.ring.slot_eq (j + 1) (by omega)
  have hget : r.handed[j + 1]? = some c := by
    rw [hq, List.getElem?_cons_succ, List.getElem?_eq_getElem hj, hc]
  rw [hget] at hslot
  obtain ⟨-, hcur⟩ := view_slot_some hslot
  have hlt : c < r.size := h.ring.ridx_lt
  have hself : (c + 0) % r.size = c := by rw [Nat.add_zero, Nat.mod_eq_of_lt hlt]
  have hback : (c + (j + 1)) % r.size = (c + 0) % r.size := hcur.symm.trans hself.symm
  have := offset_injective (by omega) (by omega) hback
  omega

theorem Sound.handed_arm (h : Sound base r c) (hq : r.handed = c :: q) (word3 : BitVec 32) :
    (r.arm base c id word3).handed = q := by
  show r.handed.filter (· ≠ c) = q
  have hnot := h.not_mem_tail hq
  rw [hq, List.filter_cons_of_neg (by simp), List.filter_eq_self]
  intro a ha
  have hne : a ≠ c := fun heq => hnot (heq ▸ ha)
  simpa using hne

/-- The slot at the cursor is armed. -/
theorem Sound.arm (h : Sound base r c) (hq : r.handed = c :: q) (word3 : BitVec 32) :
    Sound base (r.arm base c id word3) (slotAfter r.size c) := by
  have hlt : c < r.size := h.ring.ridx_lt
  have hpop : (r.arm base c id word3).view (slotAfter r.size c) = (r.view c).pop r.size := by
    apply view_eq
    · intro i
      show _ = Function.update (r.view c).slot c none i
      by_cases hi : i = c
      · subst hi
        rw [Function.update_self]
        exact view_slot_none.mpr (armed_arm_self word3)
      · rw [Function.update_of_ne hi]
        show (if ((r.arm base c id word3).desc i).armed then none else some i) = _
        rw [arm_desc_of_ne hi]
        rfl
    · rfl
    · exact slotAfter_eq_next hlt
  refine ⟨?_, fun i hi => address_arm word3 (h.address i hi)⟩
  show FlagRing.Holds r.size _ _
  rw [hpop, h.handed_arm hq]
  apply FlagRing.Holds.pop (e := c)
  rw [← hq]
  exact h.ring

/-- After a slot is armed, all slots from the chip's up to it are. -/
theorem Sound.ready (h : Sound base r c) (hq : r.handed = c :: q) (word3 : BitVec 32) :
    ∃ m < r.size, c = (r.chip + m) % r.size ∧
      ∀ j ≤ m, ((r.arm base c id word3).desc ((r.chip + j) % r.size)).armed = true := by
  have hlt : c < r.size := h.ring.ridx_lt
  have hle : r.handed.length ≤ r.size := h.ring.length_le
  have hchip : r.chip = (c + r.handed.length) % r.size := h.ring.widx_eq
  rw [hq, List.length_cons] at hle hchip
  refine ⟨r.size - (q.length + 1), by omega, ?_, ?_⟩
  · have hsum : c + (q.length + 1 + (r.size - (q.length + 1))) = c + r.size := by omega
    rw [hchip, mod_add_mod_eq, hsum, Nat.add_mod_right, Nat.mod_eq_of_lt hlt]
  · intro j hj
    have harmed : Sound base (r.arm base c id word3) (slotAfter r.size c) := h.arm hq word3
    have hafter := harmed.ring.slot_eq (q.length + j) (by
      show q.length + j < r.size
      omega)
    rw [h.handed_arm hq, List.getElem?_eq_none (by omega)] at hafter
    have harm := view_slot_none.mp hafter
    have hplace : (slotAfter r.size c + (q.length + j)) % r.size = (r.chip + j) % r.size := by
      rw [slotAfter_eq hlt, hchip, mod_add_mod_eq, mod_add_mod_eq]
      congr 1
      omega
    rw [← hplace]
    exact harm

/-! ## Ids -/

/-- A slot takes the first id in hand; it is live from now on. -/
theorem Apart.arm (h : Apart r live (id :: hands) free) (hlive : ∀ j, live' j → j ≠ c → live j)
    (word3 : BitVec 32) : Apart (r.arm base c id word3) live' hands free := by
  obtain ⟨hnot, hnodup⟩ := List.nodup_cons.mp h.nodup
  have hnew : ∀ j, live' j → j ≠ c → (r.desc j).armed = true → r.bufid j ≠ id := by
    intro j hj hne harm heq
    exact h.unused j (hlive j hj hne) harm (heq ▸ List.mem_cons_self)
  refine ⟨?_, hnodup, ?_⟩
  · intro i j hi hj hai haj heq
    by_cases hic : i = c
    · by_cases hjc : j = c
      · rw [hic, hjc]
      · subst hic
        rw [arm_desc_of_ne hjc] at haj
        rw [arm_bufid_self, arm_bufid_of_ne hjc] at heq
        exact absurd heq.symm (hnew j hj hjc haj)
    · rw [arm_desc_of_ne hic] at hai
      by_cases hjc : j = c
      · subst hjc
        rw [arm_bufid_self, arm_bufid_of_ne hic] at heq
        exact absurd heq (hnew i hi hic hai)
      · rw [arm_desc_of_ne hjc] at haj
        rw [arm_bufid_of_ne hic, arm_bufid_of_ne hjc] at heq
        exact h.distinct i j (hlive i hi hic) (hlive j hj hjc) hai haj heq
  · intro i hi harm
    by_cases hic : i = c
    · subst hic
      rw [arm_bufid_self]
      exact hnot
    · rw [arm_desc_of_ne hic] at harm
      rw [arm_bufid_of_ne hic]
      intro hmem
      exact h.unused i (hlive i hi hic) harm (List.mem_cons_of_mem _ hmem)

/-- Ids move from the pool into the hands. -/
theorem Apart.take (h : Apart r live [] free) (k : ℕ) :
    Apart r live (free.take k) (free.drop k) := by
  have hsplit : free.take k ++ free.drop k = [] ++ free := by
    rw [List.take_append_drop, List.nil_append]
  refine ⟨h.distinct, ?_, ?_⟩
  · rw [hsplit]
    exact h.nodup
  · rw [hsplit]
    exact h.unused

/-- A pool that lost ids keeps the rest apart. -/
theorem Apart.sublist {free' : List (BitVec 16)} (h : Apart r live hands free)
    (hsub : free'.Sublist free) : Apart r live hands free' := by
  have happ : (hands ++ free').Sublist (hands ++ free) := hsub.append_left hands
  refine ⟨h.distinct, h.nodup.sublist happ, ?_⟩
  intro i hi harm hmem
  exact h.unused i hi harm (happ.subset hmem)

/-- A slot handed back sets its id free of the band. -/
theorem Apart.handBack (h : Apart r live hands free) (hd : d.armed = false) :
    Apart (r.handBack d) live hands free := by
  refine ⟨?_, h.nodup, ?_⟩
  · intro i j hi hj hai haj
    exact h.distinct i j hi hj (armed_of_handBack hd hai).2 (armed_of_handBack hd haj).2
  · intro i hi harm
    exact h.unused i hi (armed_of_handBack hd harm).2

/-- An id of nobody joins the pool. -/
theorem Apart.give (h : Apart r live hands free) (hfree : id ∉ free) (hhands : id ∉ hands)
    (hslots : ∀ i, live i → (r.desc i).armed = true → r.bufid i ≠ id) :
    Apart r live hands (free ++ [id]) := by
  have hassoc : hands ++ (free ++ [id]) = (hands ++ free) ++ [id] := (List.append_assoc _ _ _).symm
  refine ⟨h.distinct, ?_, ?_⟩
  · rw [hassoc, List.nodup_append]
    refine ⟨h.nodup, List.nodup_singleton id, ?_⟩
    intro a ha b hb heq
    obtain rfl := List.mem_singleton.mp hb
    subst heq
    rcases List.mem_append.mp ha with hmem | hmem
    · exact hhands hmem
    · exact hfree hmem
  · intro i hi harm hmem
    rw [hassoc] at hmem
    rcases List.mem_append.mp hmem with hold | hnew
    · exact h.unused i hi harm hold
    · exact hslots i hi harm (List.mem_singleton.mp hnew)

end ClankerNPU.EagleRx.Refill
