import ClankerNPU.Lib.Bytes
import ClankerNPU.Lib.StepSystem
import Mathlib.Data.BitVec
import Mathlib.Tactic.IntervalCases

/-! # TDMA submit

    Harts put frames into two rings of 1024 descriptors the frame engine
    empties. `tdma_tx_submit` trusts the count of free slots it read
    last; `tdma_tx_submit_slow` reads the engine's index when that count
    is small. Here is the build with `HAS_HOT_TEXT`: each submit runs
    under a lock, and the engine moves at any time. Where one hart alone
    sends, the lock is empty code; it is then free whenever it is taken. -/

namespace ClankerNPU.Tdma

/-! ## State -/

/-- The two rings. -/
inductive Band where
  | band0
  | band1
deriving DecidableEq

/-- What the submits read and write. -/
structure TdmaTx where
  mem : Memory
  /-- `tdma_tx_ring0_base`, `tdma_tx_ring1_base` -/
  base : Band → BitVec 32
  /-- `tdma_tx_sw_idx` -/
  swIdx : Band → ℕ
  /-- `tdma_tx_free` -/
  free : Band → ℕ
  /-- the registers `TDMA_TX_RING0_IDX` and `TDMA_TX_RING0_DMA_IDX` -/
  idxReg : Band → ℕ
  dmaIdx : Band → ℕ
  /-- `wifi_debug_flags & 4` -/
  counting : Bool
  /-- the counters at `tdma_stats_base` -/
  stats : Band → ℕ → BitVec 32

/-- The arguments of a submit. -/
structure TxCall where
  token : BitVec 32
  pktLen : BitVec 32
  bufAddr : BitVec 32
  band : Band

/-- `if ((wifi_debug_flags & 4)) (*(tdma_stats_base(band) + i))++` -/
def TdmaTx.count (s : TdmaTx) (band : Band) (i : ℕ) : TdmaTx :=
  if s.counting then
    let counters := Function.update (s.stats band) i (s.stats band i + 1)
    { s with stats := Function.update s.stats band counters }
  else s

/-- `next = (sw_idx > 0x3FE) ? 0 : sw_idx + 1` -/
def tdmaNext (swIdx : ℕ) : ℕ := if swIdx > 0x3FE then 0 else swIdx + 1

/-- The slots between the two indices, as `tdma_tx_room` counts them. -/
def freeSlots (swIdx hwIdx : ℕ) : ℕ :=
  if swIdx < hwIdx then hwIdx - swIdx - 1 else 1023 - swIdx + hwIdx

/-! ## The words -/

/-- `npu_memset` with 0 -/
def npuMemset (m : Memory) (dst : BitVec 32) : ℕ → Memory
  | 0 => m
  | n + 1 => npuMemset (m.put8 dst.toNat 0) (dst + 1) n

/-- `for (pad = ...; pkt_len < 60; pkt_len++) *pad++ = 0` -/
def padTail (m : Memory) (pad pktLen : BitVec 32) : Memory × BitVec 32 :=
  if pktLen < 60 then padTail (m.put8 pad.toNat 0) (pad + 1) (pktLen + 1) else (m, pktLen)
termination_by 60 - pktLen.toNat
decreasing_by
  have hlt : pktLen.toNat < 60 := BitVec.lt_def.mp (by assumption)
  rw [BitVec.toNat_add]
  show 60 - (pktLen.toNat + 1) % 2 ^ 32 < 60 - pktLen.toNat
  omega

/-- `(u32 *)(base + 8 * sw_idx)` -/
def descAddr (base : BitVec 32) (swIdx : ℕ) : BitVec 32 := base + 8 * BitVec.ofNat 32 swIdx

/-- `*(u32 *)a = v` -/
def store32 (m : Memory) (a v : BitVec 32) : Memory := m.put32 a.toNat v.toNat

/-- What `tdma_tx_submit` does once it counted a slot. -/
def fastStore (c : TxCall) (s : TdmaTx) : TdmaTx :=
  let s := { s with free := Function.update s.free c.band (s.free c.band - 1) }
  let (mem, pktLen) := padTail s.mem (c.bufAddr + c.pktLen) c.pktLen
  let swIdx := s.swIdx c.band
  let desc := descAddr (s.base c.band) swIdx
  let next := tdmaNext swIdx
  let mem := store32 mem (desc + 4) ((c.bufAddr &&& 0x3FFFFFFF#32) ||| 0x80000000#32)
  let mem := store32 mem desc (0x40000000#32 ||| (c.token <<< 14) ||| (pktLen &&& 0x1FFF#32))
  { s with
    mem := mem
    swIdx := Function.update s.swIdx c.band next
    idxReg := Function.update s.idxReg c.band next }

/-- What `tdma_tx_submit_slow` does once it has room. -/
def slowStore (c : TxCall) (s : TdmaTx) : TdmaTx :=
  let swIdx := s.swIdx c.band
  let s := { s with free := Function.update s.free c.band (s.free c.band - 1) }
  let desc := descAddr (s.base c.band) swIdx
  let w0 := (BitVec.ofNat 32 (s.mem.word32 desc.toNat) &&& 0x3FFFFFFF#32) ||| 0x40000000#32
  let w0 := (w0 &&& 0xC0001FFF#32) ||| (c.token <<< 14)
  let mem := if c.pktLen < 60 then
      npuMemset s.mem (c.bufAddr + c.pktLen) (60 - c.pktLen).toNat
    else s.mem
  let pktLen := if c.pktLen < 60 then 60 else c.pktLen
  let next := tdmaNext swIdx
  let s := s.count c.band 79
  let mem := store32 mem (desc + 4) ((c.bufAddr &&& 0x3FFFFFFF#32) ||| 0x80000000#32)
  let mem := store32 mem desc ((w0 &&& 0xFFFFE000#32) ||| (pktLen &&& 0x1FFF#32))
  { s with
    mem := mem
    swIdx := Function.update s.swIdx c.band next
    idxReg := Function.update s.idxReg c.band next }

/-! ### The two stores agree -/

/-- Both loops clear the same bytes. -/
theorem padTail_eq (m : Memory) (pad pktLen : BitVec 32) :
    padTail m pad pktLen =
      if pktLen < 60 then (npuMemset m pad (60 - pktLen).toNat, 60) else (m, pktLen) := by
  fun_induction padTail m pad pktLen with
  | case1 m pad pktLen hlt ih =>
    have hnat : pktLen.toNat < 60 := BitVec.lt_def.mp hlt
    have hsucc : (pktLen + 1).toNat = pktLen.toNat + 1 := by
      rw [BitVec.toNat_add]
      show (pktLen.toNat + 1) % 2 ^ 32 = pktLen.toNat + 1
      omega
    have hleft : (60 - pktLen).toNat = (60 - (pktLen + 1)).toNat + 1 := by
      rw [BitVec.toNat_sub, BitVec.toNat_sub, hsucc]
      show (2 ^ 32 - pktLen.toNat + 60) % 2 ^ 32
        = (2 ^ 32 - (pktLen.toNat + 1) + 60) % 2 ^ 32 + 1
      omega
    rw [ih, if_pos hlt, hleft]
    by_cases hmore : pktLen + 1 < 60
    · rw [if_pos hmore]
      rfl
    · -- the last byte
      have hend : pktLen + 1 = 60 := by
        apply BitVec.eq_of_toNat_eq
        have hge : ¬ (pktLen + 1).toNat < 60 := fun h => hmore (BitVec.lt_def.mpr h)
        show (pktLen + 1).toNat = 60
        omega
      rw [if_neg hmore, hend]
      rfl
  | case2 m pad pktLen hge =>
    rw [if_neg hge]

/-- Word 0 merged with the old word is word 0 rebuilt. -/
theorem word0_eq (old token len : BitVec 32) :
    ((((old &&& 0x3FFFFFFF#32) ||| 0x40000000#32) &&& 0xC0001FFF#32 ||| (token <<< 14)) &&&
        0xFFFFE000#32) ||| (len &&& 0x1FFF#32)
      = 0x40000000#32 ||| (token <<< 14) ||| (len &&& 0x1FFF#32) := by
  apply BitVec.eq_of_getLsbD_eq
  intro i hi
  interval_cases i <;> simp

/-- The two paths leave the same state, but for the counters. -/
theorem slowStore_eq (c : TxCall) (s : TdmaTx) :
    { slowStore c s with stats := s.stats } = fastStore c s := by
  unfold slowStore fastStore TdmaTx.count
  simp only [word0_eq, padTail_eq]
  by_cases hshort : c.pktLen < 60
  · rw [if_pos hshort, if_pos hshort, if_pos hshort]
    split <;> rfl
  · rw [if_neg hshort, if_neg hshort, if_neg hshort]
    split <;> rfl

/-! ## The step system -/

/-- Where a hart stands in its submit. -/
inductive TxPc where
  /-- outside; the last call returned this -/
  | idle (ret : ℤ)
  /-- at the start of `tdma_tx_submit` -/
  | enter (c : TxCall)
  /-- at the lock of `tdma_tx_submit` -/
  | fast (c : TxCall)
  /-- at the start of `tdma_tx_submit_slow` -/
  | enterSlow (c : TxCall)
  /-- at the lock of `tdma_tx_submit_slow` -/
  | slow (c : TxCall)
  /-- under the lock, in `tdma_tx_room` -/
  | room (c : TxCall) (retries : ℕ)
  /-- under the lock, with room -/
  | store (c : TxCall)

/-- The submits of all harts. -/
structure TxRun (H : Type*) where
  tx : TdmaTx
  pc : H → TxPc
  lock : Option H

variable {H : Type*} [DecidableEq H]

/-- Write a hart's place. -/
def TxRun.goto (s : TxRun H) (h : H) (pc : TxPc) : TxRun H :=
  { s with pc := Function.update s.pc h pc }

/-- The section of `tdma_tx_submit` under the lock. -/
def fastSection (c : TxCall) (s : TdmaTx) : TdmaTx × TxPc :=
  if s.free c.band ≤ 4 then (s, .enterSlow c) else (fastStore c s, .idle 0)

/-- One round of the loop of `tdma_tx_room`. -/
def roomRound (c : TxCall) (retries : ℕ) (s : TdmaTx) : TdmaTx × TxPc :=
  let slots := freeSlots (s.swIdx c.band) (s.dmaIdx c.band)
  if slots > 4 then ({ s with free := Function.update s.free c.band slots }, .store c)
  else
    let s := s.count c.band 63
    if retries - 1 = 0 then
      let s := s.count c.band 64
      ({ s with free := Function.update s.free c.band 0 }, .idle (-1))
    else (s, .room c (retries - 1))

/-- A hart's next step, unless it waits for the lock. -/
def hartStep (h : H) (s : TxRun H) : Option (TxRun H) :=
  match s.pc h with
  | .idle _ => none
  | .enter c =>
    if s.tx.base c.band = 0 ∨ s.tx.counting then some (s.goto h (.enterSlow c))
    else some (s.goto h (.fast c))
  | .fast c =>
    if s.lock = none then
      let (tx, pc) := fastSection c s.tx
      some { s.goto h pc with tx := tx }
    else none
  | .enterSlow c =>
    if s.tx.base c.band = 0 then some (s.goto h (.idle (-1)))
    else some (s.goto h (.slow c))
  | .slow c =>
    if s.lock = none then
      let pc := if s.tx.free c.band ≤ 4 then .room c 5 else .store c
      some { s.goto h pc with lock := some h }
    else none
  | .room c retries =>
    let (tx, pc) := roomRound c retries s.tx
    let lock := match pc with
      | .idle _ => none
      | _ => s.lock
    some { s.goto h pc with tx := tx, lock := lock }
  | .store c => some { s.goto h (.idle 0) with tx := slowStore c s.tx, lock := none }

inductive TxAction (H : Type*) where
  /-- a hart calls `tdma_tx_submit` -/
  | call (h : H) (c : TxCall)
  | hart (h : H)
  /-- the engine takes a descriptor -/
  | engine (band : Band)
  /-- the host sets the debug flags -/
  | debug (counting : Bool)

/-- The submits against the engine; it starts with empty rings. -/
def txSystem (H : Type*) [DecidableEq H] : StepSystem (TxRun H) (TxAction H) where
  init s := s.tx.swIdx = (fun _ => 0) ∧ s.tx.idxReg = (fun _ => 0) ∧ s.tx.dmaIdx = (fun _ => 0) ∧
    s.tx.free = (fun _ => 0) ∧ s.pc = (fun _ => .idle 0) ∧ s.lock = none
  step s a s' := match a with
    | .call h c => (∃ ret, s.pc h = .idle ret) ∧ s' = s.goto h (.enter c)
    | .hart h => hartStep h s = some s'
    | .engine b => s.tx.dmaIdx b ≠ s.tx.idxReg b ∧
        s' = { s with tx := { s.tx with
          dmaIdx := Function.update s.tx.dmaIdx b (tdmaNext (s.tx.dmaIdx b)) } }
    | .debug counting => s' = { s with tx := { s.tx with counting := counting } }

/-! ## The invariant -/

/-- The free slots of a ring. -/
def TdmaTx.slots (s : TdmaTx) (b : Band) : ℕ := freeSlots (s.swIdx b) (s.dmaIdx b)

/-- A ring's indices and its cached count. -/
structure BandOk (s : TdmaTx) (b : Band) : Prop where
  swIdx_lt : s.swIdx b < 1024
  dmaIdx_lt : s.dmaIdx b < 1024
  published : s.idxReg b = s.swIdx b
  cached : s.free b ≤ s.slots b
  room : 4 ≤ s.slots b

/-- What holds between any two steps. -/
structure TxInv (s : TxRun H) : Prop where
  band : ∀ b, BandOk s.tx b
  /-- who is in the slow section holds the lock -/
  room_lock : ∀ h c retries, s.pc h = .room c retries → s.lock = some h
  store_lock : ∀ h c, s.pc h = .store c → s.lock = some h
  /-- a hart about to store knows of more than four slots -/
  store_free : ∀ h c, s.pc h = .store c → 4 < s.tx.free c.band

section Slots

variable {sw hw : ℕ}

/-- A submit takes one free slot. -/
theorem freeSlots_next (hsw : sw < 1024) (hhw : hw < 1024) (hfree : 0 < freeSlots sw hw) :
    freeSlots (tdmaNext sw) hw = freeSlots sw hw - 1 := by
  unfold freeSlots tdmaNext at *
  split_ifs at * <;> omega

/-- The engine frees slots, until the ring is empty. -/
theorem freeSlots_engine (hsw : sw < 1024) (hhw : hw < 1024) (hne : hw ≠ sw) :
    freeSlots sw (tdmaNext hw) = freeSlots sw hw + 1 := by
  unfold freeSlots tdmaNext
  split_ifs <;> omega

theorem tdmaNext_lt (hsw : sw < 1024) : tdmaNext sw < 1024 := by
  unfold tdmaNext
  split <;> omega

/-- With a free slot between them the indices differ after a submit. -/
theorem tdmaNext_ne (hsw : sw < 1024) (hhw : hw < 1024) (hfree : 0 < freeSlots sw hw) :
    tdmaNext sw ≠ hw := by
  unfold freeSlots at hfree
  unfold tdmaNext
  split_ifs at * <;> omega

end Slots

/-! ### Rings -/

section Bands

variable {s : TdmaTx} {b : Band} {c : TxCall}

/-- The store of an accepted submit keeps every ring's indices in order. -/
theorem BandOk.fastStore (h : ∀ b, BandOk s b) (hfree : 4 < s.free c.band) (b : Band) :
    BandOk (fastStore c s) b := by
  have hb := h b
  by_cases hown : b = c.band
  · subst hown
    have hroom : 4 < s.slots c.band := Nat.lt_of_lt_of_le hfree hb.cached
    have hnext : (Tdma.fastStore c s).swIdx c.band = tdmaNext (s.swIdx c.band) :=
      Function.update_self _ _ _
    have hreg : (Tdma.fastStore c s).idxReg c.band = tdmaNext (s.swIdx c.band) :=
      Function.update_self _ _ _
    have hfree' : (Tdma.fastStore c s).free c.band = s.free c.band - 1 :=
      Function.update_self _ _ _
    have hdma : (Tdma.fastStore c s).dmaIdx c.band = s.dmaIdx c.band := rfl
    -- one slot less is free, and the count says one less
    have hslots : (Tdma.fastStore c s).slots c.band = s.slots c.band - 1 := by
      unfold TdmaTx.slots
      rw [hnext, hdma]
      exact freeSlots_next hb.swIdx_lt hb.dmaIdx_lt (Nat.lt_of_le_of_lt (Nat.zero_le _) hroom)
    have hcached := hb.cached
    refine ⟨?_, hb.dmaIdx_lt, hreg.trans hnext.symm, ?_, ?_⟩
    · rw [hnext]
      exact tdmaNext_lt hb.swIdx_lt
    · rw [hfree', hslots]
      omega
    · rw [hslots]
      omega
  · -- the other ring is untouched
    have hnext : (Tdma.fastStore c s).swIdx b = s.swIdx b := Function.update_of_ne hown _ _
    have hreg : (Tdma.fastStore c s).idxReg b = s.idxReg b := Function.update_of_ne hown _ _
    have hfree' : (Tdma.fastStore c s).free b = s.free b := Function.update_of_ne hown _ _
    have hslots : (Tdma.fastStore c s).slots b = s.slots b := by
      unfold TdmaTx.slots
      rw [hnext]
      rfl
    refine ⟨?_, hb.dmaIdx_lt, ?_, ?_, ?_⟩
    · rw [hnext]
      exact hb.swIdx_lt
    · rw [hreg, hnext]
      exact hb.published
    · rw [hfree', hslots]
      exact hb.cached
    · rw [hslots]
      exact hb.room

/-- Rings depend on the indices and the count only. -/
theorem BandOk.congr {s' : TdmaTx} (h : BandOk s b) (hsw : s'.swIdx b = s.swIdx b)
    (hreg : s'.idxReg b = s.idxReg b) (hdma : s'.dmaIdx b = s.dmaIdx b)
    (hfree : s'.free b ≤ s.slots b) : BandOk s' b := by
  have hslots : s'.slots b = s.slots b := by
    unfold TdmaTx.slots
    rw [hsw, hdma]
  refine ⟨?_, ?_, ?_, ?_, ?_⟩
  · rw [hsw]
    exact h.swIdx_lt
  · rw [hdma]
    exact h.dmaIdx_lt
  · rw [hreg, hsw]
    exact h.published
  · rw [hslots]
    exact hfree
  · rw [hslots]
    exact h.room

theorem BandOk.slowStore (h : ∀ b, BandOk s b) (hfree : 4 < s.free c.band) (b : Band) :
    BandOk (slowStore c s) b := by
  have hfast := BandOk.fastStore h hfree b
  rw [← slowStore_eq] at hfast
  exact ⟨hfast.swIdx_lt, hfast.dmaIdx_lt, hfast.published, hfast.cached, hfast.room⟩

theorem count_idle (hcount : s.counting = false) (band : Band) (i : ℕ) : s.count band i = s := by
  unfold TdmaTx.count
  rw [if_neg (by rw [hcount]; exact Bool.false_ne_true)]

theorem BandOk.count (h : BandOk s b) (band : Band) (i : ℕ) : BandOk (s.count band i) b := by
  unfold TdmaTx.count
  split
  · exact ⟨h.swIdx_lt, h.dmaIdx_lt, h.published, h.cached, h.room⟩
  · exact h

/-- A count written over the cached one must not exceed the free slots. -/
theorem BandOk.setFree (h : ∀ b, BandOk s b) {band : Band} {n : ℕ} (hn : n ≤ s.slots band)
    (b : Band) : BandOk { s with free := Function.update s.free band n } b := by
  refine (h b).congr rfl rfl rfl ?_
  by_cases hown : b = band
  · subst hown
    show Function.update s.free b n b ≤ _
    rw [Function.update_self]
    exact hn
  · show Function.update s.free band n b ≤ _
    rw [Function.update_of_ne hown]
    exact (h b).cached

/-- The engine leaves the cached count too small at most. -/
theorem BandOk.engine (h : ∀ b, BandOk s b) {e : Band} (hne : s.dmaIdx e ≠ s.idxReg e)
    (b : Band) :
    BandOk { s with dmaIdx := Function.update s.dmaIdx e (tdmaNext (s.dmaIdx e)) } b := by
  have hb := h b
  by_cases hown : b = e
  · subst hown
    rw [hb.published] at hne
    have hslots := freeSlots_engine hb.swIdx_lt hb.dmaIdx_lt hne
    have hdma : Function.update s.dmaIdx b (tdmaNext (s.dmaIdx b)) b = tdmaNext (s.dmaIdx b) :=
      Function.update_self _ _ _
    have hcached := hb.cached
    have hroom := hb.room
    unfold TdmaTx.slots at hcached hroom
    refine ⟨hb.swIdx_lt, ?_, hb.published, ?_, ?_⟩
    · dsimp only
      rw [hdma]
      exact tdmaNext_lt hb.dmaIdx_lt
    · unfold TdmaTx.slots
      dsimp only
      rw [hdma, hslots]
      omega
    · unfold TdmaTx.slots
      dsimp only
      rw [hdma, hslots]
      omega
  · exact hb.congr rfl rfl (Function.update_of_ne hown _ _) hb.cached

end Bands

/-! ### Steps -/

variable {s s' : TxRun H} {h : H}

/-- A hart moves on, with the lock of no other taken away and no count
    changed under another's lock. -/
theorem TxInv.move {tx : TdmaTx} {pc : TxPc} {lock : Option H} (hinv : TxInv s)
    (hband : ∀ b, BandOk tx b)
    (hother : ∀ k, k ≠ h → s.lock = some k → lock = some k ∧ tx.free = s.tx.free)
    (hroom : ∀ c retries, pc = .room c retries → lock = some h)
    (hstore : ∀ c, pc = .store c → lock = some h ∧ 4 < tx.free c.band) :
    TxInv { s.goto h pc with tx := tx, lock := lock } := by
  have hpc : ∀ k pc', Function.update s.pc h pc k = pc' → k = h ∧ pc = pc' ∨
      k ≠ h ∧ s.pc k = pc' := by
    intro k pc' hk
    by_cases hkh : k = h
    · subst hkh
      rw [Function.update_self] at hk
      exact Or.inl ⟨rfl, hk⟩
    · rw [Function.update_of_ne hkh] at hk
      exact Or.inr ⟨hkh, hk⟩
  refine ⟨hband, ?_, ?_, ?_⟩
  · intro k c retries hk
    rcases hpc k _ hk with ⟨rfl, hnew⟩ | ⟨hne, hold⟩
    · exact hroom c retries hnew
    · exact (hother k hne (hinv.room_lock k c retries hold)).1
  · intro k c hk
    rcases hpc k _ hk with ⟨rfl, hnew⟩ | ⟨hne, hold⟩
    · exact (hstore c hnew).1
    · exact (hother k hne (hinv.store_lock k c hold)).1
  · intro k c hk
    show 4 < tx.free c.band
    rcases hpc k _ hk with ⟨rfl, hnew⟩ | ⟨hne, hold⟩
    · exact (hstore c hnew).2
    · rw [(hother k hne (hinv.store_lock k c hold)).2]
      exact hinv.store_free k c hold

/-- A move outside the slow section. -/
theorem TxInv.goto {pc : TxPc} (hinv : TxInv s) (hroom : ∀ c retries, pc ≠ .room c retries)
    (hstore : ∀ c, pc ≠ .store c) : TxInv (s.goto h pc) :=
  hinv.move hinv.band (fun _ _ hk => ⟨hk, rfl⟩) (fun c r hpc => absurd hpc (hroom c r))
    (fun c hpc => absurd hpc (hstore c))

/-- What a round of the waiting loop leaves. -/
theorem roomRound_spec {tx : TdmaTx} (hband : ∀ b, BandOk tx b) (c : TxCall) (retries : ℕ) :
    (∀ b, BandOk (roomRound c retries tx).1 b) ∧
      ((roomRound c retries tx).2 = .store c ∧ 4 < (roomRound c retries tx).1.free c.band ∨
        (roomRound c retries tx).2 = .room c (retries - 1) ∨
        (roomRound c retries tx).2 = .idle (-1)) := by
  unfold roomRound
  by_cases hroom : freeSlots (tx.swIdx c.band) (tx.dmaIdx c.band) > 4
  · simp only [if_pos hroom]
    refine ⟨BandOk.setFree hband le_rfl, Or.inl ⟨trivial, ?_⟩⟩
    rw [Function.update_self]
    exact hroom
  · simp only [if_neg hroom]
    by_cases hlast : retries - 1 = 0
    · simp only [if_pos hlast]
      exact ⟨BandOk.setFree (fun b => ((hband b).count _ _).count _ _) (Nat.zero_le _),
        Or.inr (Or.inr trivial)⟩
    · simp only [if_neg hlast]
      exact ⟨fun b => (hband b).count _ _, Or.inr (Or.inl trivial)⟩

/-- A hart's step keeps the invariant. -/
theorem hart_inv (hinv : TxInv s) (hstep : hartStep h s = some s') : TxInv s' := by
  unfold hartStep at hstep
  split at hstep
  · cases hstep
  · -- enter
    split at hstep <;> obtain rfl := Option.some.inj hstep
    · exact hinv.goto nofun nofun
    · exact hinv.goto nofun nofun
  · next c hpc =>
    -- the fast section
    split at hstep
    · next hlock =>
      unfold fastSection at hstep
      by_cases hfree : s.tx.free c.band ≤ 4
      · rw [if_pos hfree] at hstep
        obtain rfl := Option.some.inj hstep
        exact hinv.goto nofun nofun
      · rw [if_neg hfree] at hstep
        obtain rfl := Option.some.inj hstep
        refine hinv.move (BandOk.fastStore hinv.band (by omega)) ?_ nofun nofun
        intro k _ hk
        rw [hlock] at hk
        cases hk
    · cases hstep
  · split at hstep <;> obtain rfl := Option.some.inj hstep
    · exact hinv.goto nofun nofun
    · exact hinv.goto nofun nofun
  · next c hpc =>
    -- the slow section begins
    split at hstep
    · next hlock =>
      obtain rfl := Option.some.inj hstep
      refine hinv.move hinv.band ?_ (fun _ _ _ => rfl) ?_
      · intro k _ hk
        rw [hlock] at hk
        cases hk
      · intro c' hc'
        refine ⟨rfl, ?_⟩
        split at hc'
        · cases hc'
        · next hfree =>
          cases hc'
          show 4 < s.tx.free c.band
          omega
    · cases hstep
  · next c retries hpc =>
    have hspec := roomRound_spec hinv.band c retries
    rcases hround : roomRound c retries s.tx with ⟨tx, pc⟩
    rw [hround] at hstep hspec
    obtain rfl := Option.some.inj hstep
    have hlock := hinv.room_lock h c retries hpc
    have hnone : ∀ k, k ≠ h → s.lock ≠ some k := by
      intro k hne hk
      exact hne (Option.some.inj (hk.symm.trans hlock))
    dsimp only at hspec
    obtain ⟨hband, ⟨rfl, hfree⟩ | rfl | rfl⟩ := hspec
    · refine hinv.move hband (fun k hne hk => absurd hk (hnone k hne)) nofun ?_
      intro c' hc'
      cases hc'
      exact ⟨hlock, hfree⟩
    · exact hinv.move hband (fun k hne hk => absurd hk (hnone k hne)) (fun _ _ _ => hlock) nofun
    · exact hinv.move hband (fun k hne hk => absurd hk (hnone k hne)) nofun nofun
  · next c hpc =>
    -- the store
    obtain rfl := Option.some.inj hstep
    have hlock := hinv.store_lock h c hpc
    refine hinv.move (BandOk.slowStore hinv.band (hinv.store_free h c hpc)) ?_ nofun nofun
    intro k hne hk
    exact absurd (Option.some.inj (hk.symm.trans hlock)) hne

theorem txInv_init (h : (txSystem H).init s) : TxInv s := by
  obtain ⟨hsw, hreg, hdma, hfree, hpc, -⟩ := h
  refine ⟨?_, ?_, ?_, ?_⟩
  · intro b
    have hslots : s.tx.slots b = 1023 := by
      unfold TdmaTx.slots
      rw [hsw, hdma]
      rfl
    refine ⟨?_, ?_, ?_, ?_, ?_⟩
    · rw [hsw]
      exact Nat.zero_lt_succ _
    · rw [hdma]
      exact Nat.zero_lt_succ _
    · rw [hreg, hsw]
    · rw [hfree]
      exact Nat.zero_le _
    · rw [hslots]
      decide
  · intro k c retries hk
    rw [hpc] at hk
    cases hk
  · intro k c hk
    rw [hpc] at hk
    cases hk
  · intro k c hk
    rw [hpc] at hk
    cases hk

theorem txInv_step {a : TxAction H} (hinv : TxInv s) (hstep : (txSystem H).step s a s') :
    TxInv s' := by
  cases a with
  | call k c =>
    obtain ⟨-, rfl⟩ := hstep
    exact hinv.goto nofun nofun
  | hart k => exact hart_inv hinv hstep
  | engine b =>
    obtain ⟨hne, rfl⟩ := hstep
    exact ⟨BandOk.engine hinv.band hne, hinv.room_lock, hinv.store_lock, hinv.store_free⟩
  | debug counting =>
    obtain rfl := hstep
    exact ⟨fun b => (hinv.band b).congr rfl rfl rfl (hinv.band b).cached, hinv.room_lock,
      hinv.store_lock, hinv.store_free⟩

theorem txInv_of_reachable (hs : (txSystem H).Reachable s) : TxInv s :=
  hs.invariant (fun _ h => txInv_init h) fun _ _ _ hinv hstep => txInv_step hinv hstep

/-! ## Safety -/

/-- A hart runs on its own, `n` steps at most. -/
def alone (h : H) : ℕ → TxRun H → TxRun H
  | 0, s => s
  | n + 1, s => match hartStep h s with
    | none => s
    | some s' => alone h n s'

/-- A hart that runs on its own makes its next step first. -/
theorem alone_step {n : ℕ} (hstep : hartStep h s = some s') :
    alone h (n + 1) s = alone h n s' := by
  conv_lhs => unfold alone
  rw [hstep]

/-- Going on to a further place forgets the place between. -/
theorem goto_goto (pc pc' : TxPc) : (s.goto h pc).goto h pc' = s.goto h pc' := by
  unfold TxRun.goto
  rw [Function.update_idem]

theorem goto_pc (pc : TxPc) : (s.goto h pc).pc h = pc := Function.update_self _ _ _

/-- Where the fast path is taken, it is two steps. -/
theorem alone_fast {c : TxCall} (hlock : s.lock = none) (hbase : s.tx.base c.band ≠ 0)
    (hcount : s.tx.counting = false) (hfree : 4 < s.tx.free c.band) :
    alone h 2 (s.goto h (.enter c)) = { s.goto h (.idle 0) with tx := fastStore c s.tx } := by
  have hfirst : hartStep h (s.goto h (.enter c)) = some (s.goto h (.fast c)) := by
    unfold hartStep
    rw [goto_pc]
    have hpass : ¬ (s.tx.base c.band = 0 ∨ s.tx.counting = true) := by
      rw [hcount]
      simpa using hbase
    dsimp only
    rw [goto_goto, goto_goto]
    exact if_neg hpass
  have hsecond : hartStep h (s.goto h (.fast c))
      = some { s.goto h (.idle 0) with tx := fastStore c s.tx } := by
    have hsection : fastSection c s.tx = (fastStore c s.tx, .idle 0) := if_neg (by omega)
    unfold hartStep
    rw [goto_pc]
    dsimp only
    rw [if_pos (show (s.goto h (.fast c)).lock = none from hlock), goto_goto,
      show (s.goto h (.fast c)).tx = s.tx from rfl, hsection]
  rw [alone_step hfirst, alone_step hsecond]
  rfl

/-- There the slow path is three steps, and leaves the same. -/
theorem alone_slow {c : TxCall} (hlock : s.lock = none) (hbase : s.tx.base c.band ≠ 0)
    (hcount : s.tx.counting = false) (hfree : 4 < s.tx.free c.band) :
    alone h 3 (s.goto h (.enterSlow c)) = { s.goto h (.idle 0) with tx := fastStore c s.tx } := by
  have hfirst : hartStep h (s.goto h (.enterSlow c)) = some (s.goto h (.slow c)) := by
    unfold hartStep
    rw [goto_pc]
    dsimp only
    rw [goto_goto, goto_goto]
    exact if_neg hbase
  have hsecond : hartStep h (s.goto h (.slow c))
      = some { s.goto h (.store c) with lock := some h } := by
    unfold hartStep
    rw [goto_pc]
    dsimp only
    rw [if_pos (show (s.goto h (.slow c)).lock = none from hlock), goto_goto,
      if_neg (show ¬ (s.goto h (.slow c)).tx.free c.band ≤ 4 from Nat.not_le.mpr hfree)]
  have hthird : hartStep h { s.goto h (.store c) with lock := some h }
      = some { s.goto h (.idle 0) with tx := slowStore c s.tx } := by
    have hpc : ({ s.goto h (.store c) with lock := some h } : TxRun H).pc h = .store c :=
      goto_pc _
    unfold hartStep
    rw [hpc]
    dsimp only [TxRun.goto]
    rw [Function.update_idem, hlock]
  -- the slow path differs by a statistic that is off
  have hstats : (slowStore c s.tx).stats = s.tx.stats := by
    let tx : TdmaTx :=
      { s.tx with free := Function.update s.tx.free c.band (s.tx.free c.band - 1) }
    have hquiet : tx.counting = false := hcount
    have hidle : tx.count c.band 79 = tx := count_idle hquiet _ _
    show (tx.count c.band 79).stats = tx.stats
    rw [hidle]
  have hstore : slowStore c s.tx = fastStore c s.tx := by
    rw [← slowStore_eq, ← hstats]
  rw [alone_step hfirst, alone_step hsecond, alone_step hthird, hstore]
  rfl

/-- A submit that returns 0 stored a descriptor. -/
theorem hart_accepted (hinv : TxInv s) (hstep : hartStep h s = some s')
    (hret : s'.pc h = .idle 0) : ∃ c : TxCall, (s.pc h = .fast c ∨ s.pc h = .store c) ∧
      4 < s.tx.slots c.band ∧ s'.tx.swIdx c.band = tdmaNext (s.tx.swIdx c.band) ∧
      s'.tx.dmaIdx c.band = s.tx.dmaIdx c.band := by
  unfold hartStep at hstep
  split at hstep
  · cases hstep
  · split at hstep <;> obtain rfl := Option.some.inj hstep <;> rw [goto_pc] at hret <;> cases hret
  · -- the fast section stores and returns 0, unless the count is low
    next c hpc =>
    unfold fastSection at hstep
    split at hstep
    · by_cases hfree : s.tx.free c.band ≤ 4
      · rw [if_pos hfree] at hstep
        obtain rfl := Option.some.inj hstep
        have hnot : (s.goto h (.enterSlow c)).pc h = .idle 0 := hret
        rw [goto_pc] at hnot
        cases hnot
      · rw [if_neg hfree] at hstep
        obtain rfl := Option.some.inj hstep
        exact ⟨c, Or.inl hpc, Nat.lt_of_lt_of_le (by omega) (hinv.band c.band).cached,
          Function.update_self _ _ _, rfl⟩
    · cases hstep
  · split at hstep <;> obtain rfl := Option.some.inj hstep <;> rw [goto_pc] at hret <;> cases hret
  · next c hpc =>
    split at hstep
    · obtain rfl := Option.some.inj hstep
      have hnot : Function.update s.pc h (if s.tx.free c.band ≤ 4 then .room c 5 else .store c) h
          = .idle 0 := hret
      rw [Function.update_self] at hnot
      split at hnot <;> cases hnot
    · cases hstep
  · next c retries hpc =>
    have hspec := roomRound_spec hinv.band c retries
    rcases hround : roomRound c retries s.tx with ⟨tx, pc⟩
    rw [hround] at hstep hspec
    obtain rfl := Option.some.inj hstep
    have hnot : (s.goto h pc).pc h = .idle 0 := hret
    rw [goto_pc] at hnot
    obtain ⟨-, ⟨hpc', -⟩ | hpc' | hpc'⟩ := hspec <;> dsimp only at hpc' <;> rw [hpc'] at hnot <;>
      cases hnot
  · next c hpc =>
    obtain rfl := Option.some.inj hstep
    refine ⟨c, Or.inr hpc, Nat.lt_of_lt_of_le (hinv.store_free h c hpc) (hinv.band c.band).cached,
      ?_, ?_⟩
    · have hfast : (fastStore c s.tx).swIdx c.band = tdmaNext (s.tx.swIdx c.band) :=
        Function.update_self _ _ _
      rw [← slowStore_eq] at hfast
      exact hfast
    · have hfast : (fastStore c s.tx).dmaIdx c.band = s.tx.dmaIdx c.band := rfl
      rw [← slowStore_eq] at hfast
      exact hfast

/-- The ring is never overrun, and the two submits are one. -/
structure SubmitSafe (s : TxRun H) : Prop where
  /-- the cached count never exceeds the free slots -/
  cached : ∀ b, s.tx.free b ≤ s.tx.slots b
  /-- an accepted submit moves the software index by one, leaves at least
      four free slots and does not reach the engine's index -/
  accepted : ∀ h s', hartStep h s = some s' → s'.pc h = .idle 0 → ∃ c : TxCall,
    (s.pc h = .fast c ∨ s.pc h = .store c) ∧
      s'.tx.swIdx c.band = tdmaNext (s.tx.swIdx c.band) ∧ 4 ≤ s'.tx.slots c.band ∧
      s'.tx.swIdx c.band ≠ s'.tx.dmaIdx c.band
  /-- where the fast path is taken, both submits are accepted and leave the
      same state: descriptor words, padding, indices and count -/
  agree : ∀ (h : H) (c : TxCall), s.lock = none → s.tx.base c.band ≠ 0 →
    s.tx.counting = false → 4 < s.tx.free c.band →
    (alone h 2 (s.goto h (.enter c))).pc h = .idle 0 ∧
      alone h 2 (s.goto h (.enter c)) = alone h 3 (s.goto h (.enterSlow c))

theorem tdmaTxSubmit_safe (s : TxRun H) (hs : (txSystem H).Reachable s) : SubmitSafe s := by
  have hinv := txInv_of_reachable hs
  refine ⟨fun b => (hinv.band b).cached, ?_, ?_⟩
  · intro h s' hstep hret
    obtain ⟨c, hpc, hroom, hnext, hdma⟩ := hart_accepted hinv hstep hret
    have hafter := (hart_inv hinv hstep).band c.band
    refine ⟨c, hpc, hnext, hafter.room, ?_⟩
    rw [hnext, hdma]
    exact tdmaNext_ne (hinv.band c.band).swIdx_lt (hinv.band c.band).dmaIdx_lt
      (Nat.lt_of_le_of_lt (Nat.zero_le _) hroom)
  · intro h c hlock hbase hcount hfree
    rw [alone_fast hlock hbase hcount hfree, alone_slow hlock hbase hcount hfree]
    exact ⟨goto_pc _, rfl⟩

/-- A first submit waits for the engine's index and is accepted. -/
theorem tdmaTxSubmit_safe_one : ∃ s : TxRun Unit, s.tx.swIdx .band0 = 1 ∧ SubmitSafe s := by
  have h0 : (txSystem Unit).Reachable
      ⟨⟨fun _ => 0, fun _ => 0x1E800000, fun _ => 0, fun _ => 0, fun _ => 0, fun _ => 0, false,
        fun _ _ => 0⟩, fun _ => .idle 0, none⟩ := .init ⟨rfl, rfl, rfl, rfl, rfl, rfl⟩
  have h1 := h0.step (TxAction.call () ⟨7, 42, 0x80000000, .band0⟩) ⟨⟨0, rfl⟩, rfl⟩
  have h2 := h1.step (TxAction.hart ()) rfl
  have h3 := h2.step (TxAction.hart ()) rfl
  have h4 := h3.step (TxAction.hart ()) rfl
  have h5 := h4.step (TxAction.hart ()) rfl
  have h6 := h5.step (TxAction.hart ()) rfl
  have h7 := h6.step (TxAction.hart ()) rfl
  exact ⟨_, rfl, tdmaTxSubmit_safe _ h7⟩

end ClankerNPU.Tdma
