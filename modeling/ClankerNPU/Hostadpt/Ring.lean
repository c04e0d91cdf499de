import ClankerNPU.EagleRx.Model
import Mathlib.Data.BitVec

/-! # The host adaptor's out ring

    512 descriptors of six words; the NPU fills in the first three and
    the host set the buffer address in the fourth. The ready bit of word
    0 gives a slot to the host, which takes slots in order and clears it.
    A frame is copied by DMA channel 3 into the slot's buffer, either at
    once (`host_ring_submit`) or split at the wait (`host_out_start`,
    `host_out_finish`). A trace records what the calls did in which
    order. -/

namespace ClankerNPU.Hostadpt

/-! ## State -/

/-- `HOSTADPT_RING_SIZE` -/
def hostadptRingSize : ℕ := 512

/-- `HOSTADPT_BUFFER_LEN` -/
def hostadptBufferLen : BitVec 32 := 1792#32

/-- The words of an out descriptor the NPU uses. -/
structure OutDesc where
  d0 : BitVec 32
  d1 : BitVec 32
  d2 : BitVec 32
  /-- the host's buffer -/
  d3 : BitVec 32

/-- The host has yet to take the slot. -/
def OutDesc.ready (d : OutDesc) : Bool := d.d0 &&& 1#32 ≠ 0#32

/-- A copy on channel 3, with the slot it is for. -/
structure Copy where
  slot : ℕ
  src : BitVec 32
  dst : BitVec 32
  len : BitVec 32

/-- What the trace records. -/
inductive OutEvent where
  | start (c : Copy)
  | done (c : Copy)
  /-- word 0 of a slot is stored -/
  | ready (slot : ℕ)
  /-- a buffer id is given back -/
  | freed (id : BitVec 16)

/-- The out ring, the copy engine and the memories it works on. -/
structure HostRing where
  desc : ℕ → OutDesc
  /-- `HOSTADPT_RX_DMA_IDX(0)` -/
  idx : ℕ
  /-- the rx buffers, as the copies read them -/
  bufs : BitVec 32 → BitVec 8
  /-- the host's buffers -/
  host : BitVec 32 → BitVec 8
  /-- the copy under way -/
  flying : Option Copy
  trace : List OutEvent

/-- The arguments of `host_ring_submit` but for the band. -/
structure OutFrame where
  bufAddr : BitVec 32
  pktLen : BitVec 32
  wcid : BitVec 32
  amsdu : BitVec 32
  fwdType : BitVec 32
  origLen : BitVec 32
  isLast : BitVec 32
  info : BitVec 32

namespace HostRing

/-- `host_out_copy` -/
def copy (r : HostRing) (c : Copy) : HostRing :=
  { r with flying := some c, trace := r.trace ++ [.start c] }

/-- The bytes of a copy put into the host's memory. -/
def transfer (r : HostRing) (c : Copy) : BitVec 32 → BitVec 8 := fun a =>
  if a - c.dst < c.len then r.bufs (c.src + (a - c.dst)) else r.host a

/-- `host_out_wait`: the copy under way ends. -/
def wait (r : HostRing) : HostRing :=
  match r.flying with
  | none => r
  | some c => { r with host := r.transfer c, flying := none, trace := r.trace ++ [.done c] }

/-- The three words of a slot stored, word 0 last. -/
def publish (r : HostRing) (slot : ℕ) (w2 w1 w0 : BitVec 32) : HostRing :=
  { r with
    desc := Function.update r.desc slot { r.desc slot with d0 := w0, d1 := w1, d2 := w2 }
    trace := r.trace ++ [.ready slot] }

/-- A buffer id given back. -/
def free (r : HostRing) (id : BitVec 16) : HostRing :=
  { r with trace := r.trace ++ [.freed id] }

end HostRing

/-- `(idx + 1 < HOSTADPT_RING_SIZE) ? idx + 1 : 0` -/
def outNext (idx : ℕ) : ℕ := if idx + 1 < hostadptRingSize then idx + 1 else 0

/-- `if (i >= HOSTADPT_RING_SIZE) i -= HOSTADPT_RING_SIZE` -/
def outWrap (i : ℕ) : ℕ := if i ≥ hostadptRingSize then i - hostadptRingSize else i

/-! ## The words -/

def OutFrame.word1 (f : OutFrame) : BitVec 32 :=
  (f.wcid &&& 0xFFFF#32) ||| ((f.amsdu &&& 0x1F#32) <<< 16) ||| ((f.fwdType &&& 0x3F#32) <<< 26)

def OutFrame.word0 (f : OutFrame) : BitVec 32 :=
  1#32 ||| ((f.origLen &&& 0x3FFF#32) <<< 1) ||| ((f.pktLen &&& 0x3FFF#32) <<< 15) |||
    ((f.isLast &&& 1#32) <<< 29)

/-- The length `host_ring_write_desc` copies. -/
def OutFrame.copyLen (f : OutFrame) : BitVec 32 :=
  if f.pktLen ≤ hostadptBufferLen then f.pktLen
  else if f.origLen > hostadptBufferLen then hostadptBufferLen else f.origLen

/-- The length `host_out_start` copies. -/
def OutFrame.startLen (f : OutFrame) : BitVec 32 :=
  if f.pktLen > hostadptBufferLen then
    if f.origLen < hostadptBufferLen then f.origLen else hostadptBufferLen
  else f.pktLen

theorem OutFrame.startLen_eq (f : OutFrame) : f.startLen = f.copyLen := by
  unfold startLen copyLen
  by_cases hpkt : f.pktLen ≤ hostadptBufferLen
  · rw [if_pos hpkt, if_neg (BitVec.not_lt.mpr hpkt)]
  · rw [if_neg hpkt, if_pos (BitVec.not_le.mp hpkt)]
    by_cases hlong : f.origLen > hostadptBufferLen
    · have hge : ¬ f.origLen < hostadptBufferLen := by
        rw [gt_iff_lt, BitVec.lt_def] at hlong
        rw [BitVec.lt_def]
        omega
      rw [if_pos hlong, if_neg hge]
    · rw [if_neg hlong]
      by_cases hshort : f.origLen < hostadptBufferLen
      · rw [if_pos hshort]
      · -- just the buffer's length
        rw [gt_iff_lt, BitVec.lt_def] at hlong
        rw [if_neg hshort]
        rw [BitVec.lt_def] at hshort
        apply BitVec.eq_of_toNat_eq
        omega

/-- Word 0 gives the slot to the host. -/
theorem ready_word0 (f : OutFrame) (d1 d2 d3 : BitVec 32) :
    OutDesc.ready ⟨f.word0, d1, d2, d3⟩ = true := by
  unfold OutDesc.ready
  rw [decide_eq_true_iff]
  intro hzero
  have hbit := congrArg (fun v : BitVec 32 => v.getLsbD 0) hzero
  simp [OutFrame.word0] at hbit

/-! ## The synchronous submit -/

/-- `host_ring_submit` for ring 0; a refusal writes the index back. -/
def hostRingSubmit (f : OutFrame) (r : HostRing) : Bool × HostRing :=
  let idx := r.idx
  let check := if idx + 2 > 511 then idx - 510 else idx + 2
  if (r.desc check).ready then (false, r)
  else
    let r := (r.copy ⟨idx, f.bufAddr, (r.desc idx).d3, f.copyLen⟩).wait
    let r := r.publish idx f.info f.word1 f.word0
    (true, { r with idx := outNext idx })

/-! ## The split submit -/

/-- `struct host_out` -/
structure HostOut where
  slot : ℕ
  dst : BitVec 32
  next : ℕ
  w0 : BitVec 32
  w1 : BitVec 32
  w2 : BitVec 32

/-- `host_out_room` -/
def hostOutRoom (counting : Bool) (r : HostRing) (idx n : ℕ) : ℕ :=
  let check := outWrap (idx + n + 1)
  if counting = true ∨ (r.desc check).ready = true then 0 else n

/-- `host_out_finish` -/
def hostOutFinish (o : HostOut) (r : HostRing) : HostRing :=
  { (r.wait.publish o.slot o.w2 o.w1 o.w0) with idx := o.next }

/-- `host_out_start` -/
def hostOutStart (prev : Option HostOut) (idx : ℕ) (f : OutFrame) (r : HostRing) :
    HostOut × HostRing :=
  let dst := (r.desc idx).d3
  let r := match prev with
    | some o => hostOutFinish o r
    | none => r
  let r := r.copy ⟨idx, f.bufAddr, dst, f.startLen⟩
  (⟨idx, dst, outNext idx, f.word0, f.word1, f.info⟩, r)

/-! ## Free slots -/

/-- The free slots are the `k` from the out index on. -/
structure FreeRun (r : HostRing) (k : ℕ) : Prop where
  idx_lt : r.idx < hostadptRingSize
  le : k ≤ hostadptRingSize
  free : ∀ j < hostadptRingSize,
    (r.desc ((r.idx + j) % hostadptRingSize)).ready = false ↔ j < k

section FreeSlots

variable {r : HostRing} {k n j : ℕ} {f : OutFrame}

theorem outNext_eq {idx : ℕ} (h : idx < hostadptRingSize) :
    outNext idx = (idx + 1) % hostadptRingSize := by
  unfold outNext hostadptRingSize at *
  split <;> omega

theorem outWrap_eq {i : ℕ} (h : i < 2 * hostadptRingSize) : outWrap i = i % hostadptRingSize := by
  unfold outWrap hostadptRingSize at *
  split <;> omega

/-- A slot is ready once the run of free ones ended before it. -/
theorem FreeRun.ready_iff (h : FreeRun r k) (hj : j < hostadptRingSize) :
    (r.desc ((r.idx + j) % hostadptRingSize)).ready = true ↔ k ≤ j := by
  have hfree := h.free j hj
  rw [← Bool.not_eq_false, hfree, not_lt]

/-- `host_ring_submit` looks two slots ahead. -/
theorem check_eq (h : r.idx < hostadptRingSize) :
    (if r.idx + 2 > 511 then r.idx - 510 else r.idx + 2) = (r.idx + 2) % hostadptRingSize := by
  unfold hostadptRingSize at *
  split <;> omega

theorem FreeRun.submit_refused (h : FreeRun r k) (hk : k ≤ 2) :
    hostRingSubmit f r = (false, r) := by
  unfold hostRingSubmit
  dsimp only
  rw [check_eq h.idx_lt, if_pos ((h.ready_iff (by decide)).mpr hk)]

/-- What an accepted submit leaves. -/
def submitted (f : OutFrame) (r : HostRing) : HostRing :=
  { (((r.copy ⟨r.idx, f.bufAddr, (r.desc r.idx).d3, f.copyLen⟩).wait).publish r.idx f.info f.word1
      f.word0) with idx := outNext r.idx }

theorem FreeRun.submit_accepted (h : FreeRun r k) (hk : 2 < k) :
    hostRingSubmit f r = (true, submitted f r) := by
  unfold hostRingSubmit
  dsimp only
  rw [check_eq h.idx_lt, if_neg]
  · rfl
  · rw [h.ready_iff (by decide)]
    omega

/-- A submit is refused or takes the slot at the out index. -/
theorem hostRingSubmit_cases (f : OutFrame) (r : HostRing) :
    hostRingSubmit f r = (false, r) ∨ hostRingSubmit f r = (true, submitted f r) := by
  by_cases hready : (r.desc (if r.idx + 2 > 511 then r.idx - 510 else r.idx + 2)).ready = true
  · exact .inl (if_pos hready)
  · exact .inr (if_neg hready)

theorem submitted_desc (f : OutFrame) (r : HostRing) : (submitted f r).desc =
    Function.update r.desc r.idx ⟨f.word0, f.word1, f.info, (r.desc r.idx).d3⟩ := rfl

/-- It takes the first free slot. -/
theorem FreeRun.submitted (h : FreeRun r k) (hk : 0 < k) : FreeRun (submitted f r) (k - 1) := by
  have hle := h.le
  have hidx := h.idx_lt
  have hnext : (Hostadpt.submitted f r).idx = (r.idx + 1) % hostadptRingSize := outNext_eq hidx
  refine ⟨?_, by omega, ?_⟩
  · rw [hnext]
    exact Nat.mod_lt _ (by decide)
  · intro j hj
    have hslot : ((r.idx + 1) % hostadptRingSize + j) % hostadptRingSize
        = (r.idx + (1 + j)) % hostadptRingSize := by
      rw [Nat.mod_add_mod, Nat.add_assoc]
    rw [hnext, hslot, submitted_desc]
    by_cases hlast : j + 1 = hostadptRingSize
    · -- the slot just taken, one round on
      have hsame : (r.idx + (1 + j)) % hostadptRingSize = r.idx := by
        rw [Nat.add_comm 1 j, hlast, Nat.add_mod_right, Nat.mod_eq_of_lt hidx]
      rw [hsame, Function.update_self, ready_word0]
      constructor
      · exact nofun
      · intro hlt
        omega
    · have hne : (r.idx + (1 + j)) % hostadptRingSize ≠ r.idx := by
        unfold hostadptRingSize at *
        omega
      rw [Function.update_of_ne hne, h.free (1 + j) (by omega)]
      omega

theorem FreeRun.room (h : FreeRun r k) (hn : n + 1 < hostadptRingSize) :
    hostOutRoom false r r.idx n = if n + 1 < k then n else 0 := by
  have hidx := h.idx_lt
  unfold hostOutRoom
  dsimp only
  rw [outWrap_eq (by omega), Nat.add_assoc]
  have hready := h.ready_iff hn
  by_cases hroom : n + 1 < k
  · rw [if_pos hroom, if_neg]
    rintro (hno | hyes)
    · exact Bool.noConfusion hno
    · have := hready.mp hyes
      omega
  · rw [if_neg hroom, if_pos (.inr (hready.mpr (by omega)))]

end FreeSlots

end ClankerNPU.Hostadpt
