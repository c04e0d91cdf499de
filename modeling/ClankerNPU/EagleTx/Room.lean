import ClankerNPU.Lib.StepSystem
import ClankerNPU.Words

/-! # Room in the WiFi tx rings

    Core 2 puts host frames and LAN frames into two rings of 2048 slots.
    With `HAS_FAST_POLL` a pass takes the room of a ring from the last
    count of slots the chip handed back, unless that is low. A LAN frame
    names its band, whichever TDMA ring it came in on.

    The chip hands slots back in order, so a ring's state is the cpu
    index and the number of slots handed back from there on. A step is
    one frame, one slot handed back or one count. -/

namespace ClankerNPU.EagleTx.Room

/-! ## State -/

/-- The two bands, each with its tx ring and its TDMA ring. -/
inductive Band where
  | band0
  | band1
  deriving DecidableEq

/-- `EAGLE_TX_RING_MASK` and the size it stands for -/
def eagleTxRingMask : ℕ := 2047

def ringSize : ℕ := 2048

/-- `EAGLE_TX_RING_ROOM` -/
def eagleTxRingRoom : ℕ := 5

/-- `EAGLE_TX_HOST_BUDGET` -/
def eagleTxHostBudget : ℕ := 32

/-- Where core 2 stands in a pass. -/
inductive PassPc where
  /-- about to look at a band -/
  | look (band : Band)
  /-- `n` of the host frames of a band handed over, `free` as the pass
      has it -/
  | push (band : Band) (free n : ℕ)
  /-- LAN frames of a band's TDMA ring, `budget` to go -/
  | lan (band : Band) (budget : ℕ)

structure FastPath where
  /-- `eagle_tx_ring_cpu_idx` -/
  cpu : Band → ℕ
  /-- the slots from the cpu index on the chip has handed back -/
  back : Band → ℕ
  /-- `dma` of `eagle_tx_fast_path` -/
  dma : Band → ℕ
  /-- `eagle_stopping` -/
  stopping : Bool
  pc : PassPc
  /-- the values computed from `dma`, with the slots really there -/
  computed : List (ℕ × ℕ)
  /-- the slots left after each frame put into a ring -/
  left : List ℕ

/-! ## The pass -/

/-- `(dma[band] - cpu - 1) & EAGLE_TX_RING_MASK` -/
def cachedRoom (dma cpu : ℕ) : ℕ := u32 ((dma : ℤ) - cpu - 1) % ringSize

/-- The slot `i` from the cpu index on is handed back: bit 31 of the word
    at +4. -/
def FastPath.handed (s : FastPath) (band : Band) (slot : ℕ) : Bool :=
  (slot + ringSize - s.cpu band) % ringSize < s.back band

/-- The binary search of `eagle_tx_ring_room`. -/
def roomSearch (handed : ℕ → Bool) (cpu lo hi : ℕ) : ℕ :=
  if lo < hi then
    let mid := (lo + hi + 1) / 2
    if handed ((cpu + mid - 1) % ringSize) then roomSearch handed cpu mid hi
    else roomSearch handed cpu lo (mid - 1)
  else lo
termination_by hi - lo

/-- `eagle_tx_ring_room` -/
def eagleTxRingRoomOf (handed : ℕ → Bool) (cpu max : ℕ) : ℕ :=
  if handed ((cpu + max - 1) % ringSize) then max else roomSearch handed cpu 0 (max - 1)

/-- After band 1 comes band 0, after band 0 the next pass. -/
def Band.after : Band → Band
  | .band1 => .band0
  | .band0 => .band1

/-- A pass turns to a band. -/
def FastPath.look (s : FastPath) (band : Band) : FastPath :=
  let cpu := s.cpu band
  let free := cachedRoom (s.dma band) cpu
  let s := { s with computed := s.computed ++ [(free, s.back band)] }
  if free ≤ eagleTxRingRoom + eagleTxHostBudget + 128 then
    let free := eagleTxRingRoomOf (s.handed band) cpu eagleTxRingMask
    let s := { s with dma := Function.update s.dma band ((cpu + free + 1) % ringSize) }
    if free ≤ eagleTxRingRoom then { s with pc := .look band.after }
    else { s with pc := .push band (free - eagleTxRingRoom) 0 }
  else { s with pc := .push band (free - eagleTxRingRoom) 0 }

/-- A frame goes into the slot at the cpu index. -/
def FastPath.fill (s : FastPath) (band : Band) : FastPath :=
  { s with
    cpu := Function.update s.cpu band ((s.cpu band + 1) % ringSize)
    back := Function.update s.back band (s.back band - 1)
    left := s.left ++ [s.back band - 1] }

/-- The host frames of a pass: `free < EAGLE_TX_HOST_BUDGET ? free :
    EAGLE_TX_HOST_BUDGET` -/
def hostMax (free : ℕ) : ℕ := if free < eagleTxHostBudget then free else eagleTxHostBudget

/-- Host frames are over; LAN frames follow if there is room. -/
def FastPath.toLan (s : FastPath) (band : Band) (free : ℕ) : FastPath :=
  if free > 1 then { s with pc := .lan band (if free - 1 > 127 then 128 else free - 1) }
  else { s with pc := .look band.after }

inductive FastAction where
  /-- core 2 looks at the next band -/
  | look
  /-- a staged host frame goes out, or an empty staging entry is cleared -/
  | host (frame : Bool)
  | hostEnd
  /-- a LAN frame goes to a band, or is dropped -/
  | lan (band : Option Band)
  | lanEnd
  /-- `eagle_txq_state` is not 3: no room known -/
  | halt
  /-- the chip hands a slot back -/
  | chip (band : Band)
  /-- a mail sets `eagle_stopping` -/
  | stop (stopping : Bool)

/-- A step of core 2, the chip or the host. `eagle_tx_ring_push` waits
    for the next slot too, `eagle_tx_ring_fill` for five slots ahead;
    neither waits once the path is stopping. -/
def fastStep (s : FastPath) (a : FastAction) : Option FastPath :=
  match a, s.pc with
  | .look, .look band => some (s.look band)
  | .host frame, .push band free n =>
    if n < hostMax free ∧ (frame = false ∨ 2 ≤ s.back band ∨ s.stopping = true) then
      let s := if frame then s.fill band else s
      some { s with pc := .push band free (n + 1) }
    else none
  | .hostEnd, .push band free n => some (s.toLan band (free - n))
  | .lan dest, .lan band budget =>
    match dest with
    | none => if 0 < budget then some { s with pc := .lan band (budget - 1) } else none
    | some dest =>
      if 0 < budget ∧ (eagleTxRingRoom + 1 ≤ s.back dest ∨ s.stopping = true) then
        some { s.fill dest with pc := .lan band (budget - 1) }
      else none
  | .lanEnd, .lan band _ => some { s with pc := .look band.after }
  | .halt, .look .band1 =>
    some { s with dma := fun band => (s.cpu band + 1) % 65536 }
  | .chip band, _ =>
    if s.back band < ringSize then
      some { s with back := Function.update s.back band (s.back band + 1) }
    else none
  | .stop stopping, _ => some { s with stopping := stopping }
  | _, _ => none

/-- Passes over fresh rings, all of whose slots are with core 2. -/
def fastSystem : StepSystem FastPath FastAction where
  init s := s.cpu = (fun _ => 0) ∧ s.back = (fun _ => ringSize) ∧ s.dma = (fun _ => 0) ∧
    s.pc = .look .band1 ∧ s.computed = [] ∧ s.left = []
  step s a s' := fastStep s a = some s'

/-! ## What is asked -/

/-- No count taken from `dma` was too high, and no frame went into the
    last slots. -/
structure Undercounts (s : FastPath) : Prop where
  computed : ∀ e ∈ s.computed, e.1 ≤ e.2
  left : ∀ n ∈ s.left, eagleTxRingRoom ≤ n

/-- A LAN frame of one band's TDMA ring for the other band is put into a
    ring whose known room is not used up, or all of which is back; and
    not while the path is stopping, unless there is room. -/
def Known (s : FastPath) (a : FastAction) : Prop :=
  match a, s.pc with
  | .lan (some dest), .lan band _ => dest ≠ band →
      (1 ≤ cachedRoom (s.dma dest) (s.cpu dest) ∨ s.back dest = ringSize) ∧
        eagleTxRingRoom + 1 ≤ s.back dest
  | _, _ => True

/-! ## The invariant -/

/-- Where a pass stands, it has known room for what it may still send. -/
def PcOk (pc : PassPc) (dma cpu : Band → ℕ) : Prop :=
  match pc with
  | .look _ => True
  | .push band free n => n ≤ hostMax free ∧
      free + eagleTxRingRoom ≤ cachedRoom (dma band) (cpu band) + n
  | .lan band budget => budget + eagleTxRingRoom + 1 ≤ cachedRoom (dma band) (cpu band)

/-- A ring's indices and its known room. -/
structure RingOk (cpu dma back : ℕ) : Prop where
  cpu_lt : cpu < ringSize
  dma_le : dma ≤ ringSize
  back_le : back ≤ ringSize
  known : cachedRoom dma cpu ≤ back

structure PassInv (s : FastPath) : Prop where
  ring : ∀ band, RingOk (s.cpu band) (s.dma band) (s.back band)
  pc : PcOk s.pc s.dma s.cpu
  safe : Undercounts s

variable {s s' : FastPath} {band : Band}

/-- The known room in plain arithmetic. -/
theorem cachedRoom_eq {dma cpu : ℕ} (hdma : dma ≤ ringSize) (hcpu : cpu < ringSize) :
    cachedRoom dma cpu = (dma + ringSize - 1 - cpu) % ringSize := by
  unfold cachedRoom u32 ringSize at *
  omega

/-- A frame uses up known room, or wraps it round. -/
theorem cachedRoom_next {dma cpu : ℕ} (hdma : dma ≤ ringSize) (hcpu : cpu < ringSize) :
    cachedRoom dma ((cpu + 1) % ringSize)
      = if cachedRoom dma cpu = 0 then ringSize - 1 else cachedRoom dma cpu - 1 := by
  have hnext : (cpu + 1) % ringSize < ringSize := Nat.mod_lt _ (by decide)
  rw [cachedRoom_eq hdma hcpu, cachedRoom_eq hdma hnext]
  unfold ringSize at *
  split <;> omega

/-- A slot is handed back as long as it is among the first. -/
theorem handed_iff (h : RingOk (s.cpu band) (s.dma band) (s.back band)) {j : ℕ} (hj : 0 < j)
    (hlt : j ≤ ringSize) :
    s.handed band ((s.cpu band + j - 1) % ringSize) = true ↔ j ≤ s.back band := by
  have hcpu := h.cpu_lt
  have hslot : ((s.cpu band + j - 1) % ringSize + ringSize - s.cpu band) % ringSize = j - 1 := by
    unfold ringSize at *
    omega
  unfold FastPath.handed
  rw [hslot, decide_eq_true_iff]
  omega

/-- The search ends at the number of slots handed back. -/
theorem roomSearch_eq (h : RingOk (s.cpu band) (s.dma band) (s.back band)) {lo hi : ℕ}
    (hhi : hi < ringSize) (hlo : lo ≤ s.back band) (hup : s.back band ≤ hi) :
    roomSearch (s.handed band) (s.cpu band) lo hi = s.back band := by
  fun_induction roomSearch (s.handed band) (s.cpu band) lo hi with
  | case1 lo hi hlt mid hmid ih =>
    have hle := (handed_iff h (show 0 < mid by omega) (by omega)).mp hmid
    exact ih hhi hle hup
  | case2 lo hi hlt mid hmid ih =>
    have hnot : ¬ mid ≤ s.back band := by
      rw [← handed_iff h (show 0 < mid by omega) (by omega)]
      exact hmid
    exact ih (by omega) hlo (by omega)
  | case3 lo hi hge => omega

/-- The count of a ring, at most all slots but one. -/
theorem eagleTxRingRoomOf_eq (h : RingOk (s.cpu band) (s.dma band) (s.back band)) :
    eagleTxRingRoomOf (s.handed band) (s.cpu band) eagleTxRingMask
      = min eagleTxRingMask (s.back band) := by
  have hle := h.back_le
  have hmask : eagleTxRingMask = 2047 := rfl
  have hsize : ringSize = 2048 := rfl
  unfold eagleTxRingRoomOf
  by_cases hall : s.handed band ((s.cpu band + eagleTxRingMask - 1) % ringSize) = true
  · rw [if_pos hall]
    have := (handed_iff h (by decide) (by decide)).mp hall
    omega
  · rw [if_neg hall]
    have hnot : ¬ eagleTxRingMask ≤ s.back band := by
      rw [← handed_iff h (by decide) (by decide)]
      exact hall
    rw [roomSearch_eq h (by omega) (Nat.zero_le _) (by omega)]
    omega

/-! ### Steps -/

/-- A recount makes the known room what is there. -/
theorem RingOk.recount {cpu dma back free : ℕ} (h : RingOk cpu dma back)
    (hfree : free = min eagleTxRingMask back) :
    RingOk cpu ((cpu + free + 1) % ringSize) back ∧
      cachedRoom ((cpu + free + 1) % ringSize) cpu = free := by
  have hcpu := h.cpu_lt
  have hdma : (cpu + free + 1) % ringSize ≤ ringSize := Nat.le_of_lt (Nat.mod_lt _ (by decide))
  have hmask : eagleTxRingMask = 2047 := rfl
  have hroom : cachedRoom ((cpu + free + 1) % ringSize) cpu = free := by
    rw [cachedRoom_eq hdma hcpu]
    unfold ringSize at *
    omega
  refine ⟨⟨hcpu, hdma, h.back_le, ?_⟩, hroom⟩
  rw [hroom, hfree]
  exact Nat.min_le_right _ _

/-- A frame put into a ring with known room, or all of which is back. -/
theorem RingOk.fill {cpu dma back : ℕ} (h : RingOk cpu dma back)
    (hroom : 1 ≤ cachedRoom dma cpu ∨ back = ringSize) :
    RingOk ((cpu + 1) % ringSize) dma (back - 1) := by
  have hknown := h.known
  have hback := h.back_le
  have hnext := cachedRoom_next h.dma_le h.cpu_lt
  refine ⟨Nat.mod_lt _ (by decide), h.dma_le, by omega, ?_⟩
  rw [hnext]
  split <;> omega

/-- The rings after a frame. -/
theorem ring_fill (h : ∀ b, RingOk (s.cpu b) (s.dma b) (s.back b))
    (hroom : 1 ≤ cachedRoom (s.dma band) (s.cpu band) ∨ s.back band = ringSize) (b : Band) :
    RingOk ((s.fill band).cpu b) ((s.fill band).dma b) ((s.fill band).back b) := by
  unfold FastPath.fill
  dsimp only
  by_cases hb : b = band
  · subst hb
    rw [Function.update_self, Function.update_self]
    exact (h b).fill hroom
  · rw [Function.update_of_ne hb, Function.update_of_ne hb]
    exact h b

theorem Undercounts.fill (h : Undercounts s) (hback : eagleTxRingRoom + 1 ≤ s.back band) :
    Undercounts (s.fill band) := by
  refine ⟨h.computed, ?_⟩
  intro n hn
  rcases List.mem_append.mp hn with hold | hnew
  · exact h.left n hold
  · rw [List.mem_singleton.mp hnew]
    omega

/-- The known room of a band after a frame for it. -/
theorem room_fill_self (h : RingOk (s.cpu band) (s.dma band) (s.back band))
    (hroom : 1 ≤ cachedRoom (s.dma band) (s.cpu band)) :
    cachedRoom ((s.fill band).dma band) ((s.fill band).cpu band)
      = cachedRoom (s.dma band) (s.cpu band) - 1 := by
  unfold FastPath.fill
  dsimp only
  rw [Function.update_self, cachedRoom_next h.dma_le h.cpu_lt, if_neg (by omega)]

theorem PassInv.look (h : PassInv s) : PassInv (s.look band) := by
  have hring := h.ring band
  have hcount := eagleTxRingRoomOf_eq hring
  -- what is computed is recorded with the room the ring really had
  have hsafe : Undercounts { s with
      computed := s.computed ++ [(cachedRoom (s.dma band) (s.cpu band), s.back band)] } := by
    refine ⟨?_, h.safe.left⟩
    intro e he
    rcases List.mem_append.mp he with hold | hnew
    · exact h.safe.computed e hold
    · rw [List.mem_singleton.mp hnew]
      exact hring.known
  unfold FastPath.look
  dsimp only
  by_cases hlow : cachedRoom (s.dma band) (s.cpu band) ≤ eagleTxRingRoom + eagleTxHostBudget + 128
  · -- counted again
    rw [if_pos hlow]
    obtain ⟨hok, hroom⟩ := hring.recount hcount
    have hrings : ∀ b, RingOk (s.cpu b) (Function.update s.dma band ((s.cpu band +
        eagleTxRingRoomOf (s.handed band) (s.cpu band) eagleTxRingMask + 1) % ringSize) b)
        (s.back b) := by
      intro b
      by_cases hb : b = band
      · subst hb
        rw [Function.update_self]
        exact hok
      · rw [Function.update_of_ne hb]
        exact h.ring b
    have hhanded : FastPath.handed { s with
        computed := s.computed ++ [(cachedRoom (s.dma band) (s.cpu band), s.back band)] } band
        = s.handed band := rfl
    rw [hhanded]
    split
    · exact ⟨hrings, trivial, ⟨hsafe.computed, hsafe.left⟩⟩
    · refine ⟨hrings, ⟨Nat.zero_le _, ?_⟩, ⟨hsafe.computed, hsafe.left⟩⟩
      dsimp only
      rw [Function.update_self, hroom]
      omega
  · -- the cached index will do
    rw [if_neg hlow]
    refine ⟨h.ring, ⟨Nat.zero_le _, ?_⟩, ⟨hsafe.computed, hsafe.left⟩⟩
    dsimp only
    omega

theorem hostMax_le (free : ℕ) : hostMax free ≤ free := by
  unfold hostMax
  split <;> omega

/-- A host frame, or an empty entry. -/
theorem PassInv.host {free n : ℕ} {frame : Bool} (h : PassInv s) (hpc : s.pc = .push band free n)
    (hn : n < hostMax free) :
    PassInv { (if frame then s.fill band else s) with pc := .push band free (n + 1) } := by
  have hle := hostMax_le free
  obtain ⟨-, hroom⟩ : n ≤ hostMax free ∧
      free + eagleTxRingRoom ≤ cachedRoom (s.dma band) (s.cpu band) + n := by
    have := h.pc
    rwa [hpc] at this
  have hknown := (h.ring band).known
  cases frame with
  | false =>
    refine ⟨h.ring, ⟨hn, ?_⟩, ⟨h.safe.computed, h.safe.left⟩⟩
    show free + eagleTxRingRoom ≤ cachedRoom (s.dma band) (s.cpu band) + (n + 1)
    omega
  | true =>
    have hone : 1 ≤ cachedRoom (s.dma band) (s.cpu band) := by omega
    have hself := room_fill_self (h.ring band) hone
    have hback : eagleTxRingRoom + 1 ≤ s.back band := by omega
    have hsafe := h.safe.fill hback
    refine ⟨ring_fill h.ring (.inl hone), ⟨hn, ?_⟩, ⟨hsafe.computed, hsafe.left⟩⟩
    show free + eagleTxRingRoom
      ≤ cachedRoom ((s.fill band).dma band) ((s.fill band).cpu band) + (n + 1)
    rw [hself]
    omega

/-- Host frames are over. -/
theorem PassInv.toLan {free n : ℕ} (h : PassInv s) (hpc : s.pc = .push band free n) :
    PassInv (s.toLan band (free - n)) := by
  have hle := hostMax_le free
  obtain ⟨hn, hroom⟩ : n ≤ hostMax free ∧
      free + eagleTxRingRoom ≤ cachedRoom (s.dma band) (s.cpu band) + n := by
    have := h.pc
    rwa [hpc] at this
  unfold FastPath.toLan
  split
  · refine ⟨h.ring, ?_, ⟨h.safe.computed, h.safe.left⟩⟩
    show (if free - n - 1 > 127 then 128 else free - n - 1) + eagleTxRingRoom + 1
      ≤ cachedRoom (s.dma band) (s.cpu band)
    split <;> omega
  · exact ⟨h.ring, trivial, ⟨h.safe.computed, h.safe.left⟩⟩

/-- A LAN frame for either band. -/
theorem PassInv.lan {dest : Band} {budget : ℕ} (h : PassInv s) (hpc : s.pc = .lan band budget)
    (hbudget : 0 < budget) (hcross : dest ≠ band →
      (1 ≤ cachedRoom (s.dma dest) (s.cpu dest) ∨ s.back dest = ringSize) ∧
        eagleTxRingRoom + 1 ≤ s.back dest) :
    PassInv { s.fill dest with pc := .lan band (budget - 1) } := by
  have hroom : budget + eagleTxRingRoom + 1 ≤ cachedRoom (s.dma band) (s.cpu band) := by
    have := h.pc
    rwa [hpc] at this
  have hknown := (h.ring band).known
  by_cases hown : dest = band
  · subst hown
    have hone : 1 ≤ cachedRoom (s.dma dest) (s.cpu dest) := by omega
    have hself := room_fill_self (h.ring dest) hone
    have hback : eagleTxRingRoom + 1 ≤ s.back dest := by omega
    have hsafe := h.safe.fill hback
    refine ⟨ring_fill h.ring (.inl hone), ?_, ⟨hsafe.computed, hsafe.left⟩⟩
    show budget - 1 + eagleTxRingRoom + 1
      ≤ cachedRoom ((s.fill dest).dma dest) ((s.fill dest).cpu dest)
    rw [hself]
    omega
  · obtain ⟨hok, hback⟩ := hcross hown
    have hsafe := h.safe.fill hback
    refine ⟨ring_fill h.ring hok, ?_, ⟨hsafe.computed, hsafe.left⟩⟩
    show budget - 1 + eagleTxRingRoom + 1
      ≤ cachedRoom (s.dma band) (Function.update s.cpu dest ((s.cpu dest + 1) % ringSize) band)
    rw [Function.update_of_ne (Ne.symm hown)]
    omega

/-- No room is known. -/
theorem PassInv.halt (h : PassInv s) (hpc : s.pc = .look .band1) :
    PassInv { s with dma := fun band => (s.cpu band + 1) % 65536 } := by
  refine ⟨fun b => ?_, ?_, ⟨h.safe.computed, h.safe.left⟩⟩
  · have hcpu := (h.ring b).cpu_lt
    have hback := (h.ring b).back_le
    have hdma : (s.cpu b + 1) % 65536 = s.cpu b + 1 := by
      unfold ringSize at hcpu
      omega
    have hle : s.cpu b + 1 ≤ ringSize := hcpu
    dsimp only
    rw [hdma]
    refine ⟨hcpu, hle, hback, ?_⟩
    rw [cachedRoom_eq hle hcpu]
    unfold ringSize at *
    omega
  · dsimp only
    rw [hpc]
    trivial

/-- A slot handed back. -/
theorem PassInv.chip (h : PassInv s) (hlt : s.back band < ringSize) :
    PassInv { s with back := Function.update s.back band (s.back band + 1) } := by
  refine ⟨fun b => ?_, h.pc, ⟨h.safe.computed, h.safe.left⟩⟩
  dsimp only
  by_cases hb : b = band
  · subst hb
    rw [Function.update_self]
    exact ⟨(h.ring b).cpu_lt, (h.ring b).dma_le, hlt, Nat.le_succ_of_le (h.ring b).known⟩
  · rw [Function.update_of_ne hb]
    exact h.ring b

theorem fastStep_inv {a : FastAction} (h : PassInv s) (hknown : Known s a)
    (hstep : fastStep s a = some s') : PassInv s' := by
  -- the actions in the order of the step function
  unfold fastStep at hstep
  unfold Known at hknown
  split at hstep
  · obtain rfl := Option.some.inj hstep
    exact h.look
  · next frame band free n hpc =>
    split at hstep
    · next hcond =>
      obtain rfl := Option.some.inj hstep
      exact h.host hpc hcond.1
    · cases hstep
  · next band free n hpc =>
    obtain rfl := Option.some.inj hstep
    exact h.toLan hpc
  · next dest band budget hpc =>
    cases dest with
    | none =>
      dsimp only at hstep
      split at hstep
      · obtain rfl := Option.some.inj hstep
        -- no frame for this budget: it is spent all the same
        have hroom := h.pc
        rw [hpc] at hroom
        have hless : budget + eagleTxRingRoom + 1 ≤ cachedRoom (s.dma band) (s.cpu band) := hroom
        refine ⟨h.ring, ?_, ⟨h.safe.computed, h.safe.left⟩⟩
        show budget - 1 + eagleTxRingRoom + 1 ≤ cachedRoom (s.dma band) (s.cpu band)
        omega
      · cases hstep
    | some dest =>
      dsimp only at hstep
      split at hstep
      · next hcond =>
        obtain rfl := Option.some.inj hstep
        rw [hpc] at hknown
        exact h.lan hpc hcond.1 hknown
      · cases hstep
  · obtain rfl := Option.some.inj hstep
    exact ⟨h.ring, trivial, ⟨h.safe.computed, h.safe.left⟩⟩
  · next hpc =>
    obtain rfl := Option.some.inj hstep
    exact h.halt hpc
  · next band _ =>
    split at hstep
    · next hlt =>
      obtain rfl := Option.some.inj hstep
      exact h.chip hlt
    · cases hstep
  · obtain rfl := Option.some.inj hstep
    exact ⟨h.ring, h.pc, ⟨h.safe.computed, h.safe.left⟩⟩
  · cases hstep

theorem passInv_init (h : fastSystem.init s) : PassInv s := by
  obtain ⟨hcpu, hback, hdma, hpc, hcomputed, hleft⟩ := h
  refine ⟨fun b => ?_, ?_, ?_, ?_⟩
  · rw [hcpu, hback, hdma]
    have hroom : cachedRoom 0 0 ≤ ringSize := by decide
    exact ⟨Nat.zero_lt_succ _, Nat.zero_le _, le_rfl, hroom⟩
  · rw [hpc]
    trivial
  · rw [hcomputed]
    exact fun _ he => absurd he List.not_mem_nil
  · rw [hleft]
    exact fun _ hn => absurd hn List.not_mem_nil

/-- In every run in which LAN frames keep to known room, the room taken
    from the last count is really there, and no frame goes into the last
    slots. -/
theorem fastPath_undercounts (s : FastPath) (h : (fastSystem.guarded Known).Reachable s) :
    Undercounts s := by
  have hinit : ∀ s, (fastSystem.guarded Known).init s → PassInv s := fun _ h0 => passInv_init h0
  have hinv : PassInv s := by
    refine h.invariant hinit ?_
    rintro s a s' hs ⟨hknown, hstep⟩
    exact fastStep_inv hs hknown hstep
  exact hinv.safe

/-- Fresh rings. -/
def freshPath : FastPath :=
  ⟨fun _ => 0, fun _ => ringSize, fun _ => 0, false, .look .band1, [], []⟩

set_option maxRecDepth 8192 in
/-- Both bands are counted; then the LAN frames of band 1's ring go to
    band 1 and, into the room known there, to band 0. -/
theorem fastPath_undercounts_lan : ∃ s, s.left = [2047, 2047] ∧ Undercounts s := by
  have h0 : (fastSystem.guarded Known).Reachable freshPath :=
    .init ⟨rfl, rfl, rfl, rfl, rfl, rfl⟩
  have h1 := h0.step FastAction.look ⟨trivial, rfl⟩
  have h2 := h1.step FastAction.hostEnd ⟨trivial, rfl⟩
  have h3 := h2.step FastAction.lanEnd ⟨trivial, rfl⟩
  have h4 := h3.step FastAction.look ⟨trivial, rfl⟩
  have h5 := h4.step FastAction.hostEnd ⟨trivial, rfl⟩
  have h6 := h5.step FastAction.lanEnd ⟨trivial, rfl⟩
  have h7 := h6.step FastAction.look ⟨trivial, rfl⟩
  have h8 := h7.step FastAction.hostEnd ⟨trivial, rfl⟩
  have h9 := h8.step (FastAction.lan (some .band1)) ⟨fun hne => absurd rfl hne, rfl⟩
  -- the frame that crosses over goes by the count of the first pass
  have h10 := h9.step (FastAction.lan (some .band0))
    ⟨fun _ => ⟨.inl (by decide +kernel), by decide +kernel⟩, rfl⟩
  exact ⟨_, rfl, fastPath_undercounts _ h10⟩

set_option maxRecDepth 8192 in
/-- One LAN frame for band 0 is still with the chip when the path halts
    and starts again; the next, out of band 1's ring, comes before band 0
    is counted. -/
theorem fastPath_overcounts : ¬ ∀ s, fastSystem.Reachable s → Undercounts s := by
  intro hall
  have h0 : fastSystem.Reachable freshPath := .init ⟨rfl, rfl, rfl, rfl, rfl, rfl⟩
  have h1 := h0.step FastAction.look rfl
  have h2 := h1.step FastAction.hostEnd rfl
  have h3 := h2.step (FastAction.lan (some .band0)) rfl
  have h4 := h3.step FastAction.lanEnd rfl
  have h5 := h4.step FastAction.look rfl
  have h6 := h5.step FastAction.hostEnd rfl
  have h7 := h6.step FastAction.lanEnd rfl
  have h8 := h7.step FastAction.halt rfl
  have h9 := h8.step FastAction.look rfl
  have h10 := h9.step FastAction.hostEnd rfl
  have h11 := h10.step (FastAction.lan (some .band0)) rfl
  have h12 := h11.step FastAction.lanEnd rfl
  have h13 := h12.step FastAction.look rfl
  have hover := (hall _ h13).computed (2047, 2046) (by decide +kernel)
  exact absurd hover (by decide)

end ClankerNPU.EagleTx.Room
