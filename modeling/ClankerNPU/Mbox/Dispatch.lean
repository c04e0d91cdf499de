import ClankerNPU.Lib.Bytes
import ClankerNPU.Lib.StepSystem
import Mathlib.Data.BitVec
import Mathlib.Tactic.IntervalCases

/-! # Mailbox dispatch

    Every core has a row of 80 bytes: data words from 0 on, counts from
    32 on, callback words from 48 on. A mail names one of 16 slots; a row
    holds eight callbacks. The table is modelled as the memory from its
    first byte on, what lies behind it included. -/

namespace ClankerNPU.Mbox

/-! ## The build -/

inductive Soc where
  | an7552
  | an7581
  | an7583
deriving DecidableEq

inductive Wifi where
  | nowifi
  | kite
  | eagle
deriving DecidableEq

/-- The build, with the addresses its handlers are linked at. -/
structure Build where
  soc : Soc
  wifi : Wifi
  wifiMailDispatch : BitVec 32
  tunnelMailDispatch : BitVec 32
  /-- `kite_wifi_config` or `eagle_wifi_config` -/
  wifiConfig : BitVec 32
  hwnatMailDispatch : BitVec 32
  dbaMailHandler : BitVec 32

/-- `MAX_CORE_NUM` -/
def Build.maxCoreNum (b : Build) : ℕ :=
  match b.soc with
  | .an7552 => 2
  | .an7581 => 8
  | .an7583 => 6

/-- What `mailbox_init` registers: core, slot and handler. -/
def Build.registered (b : Build) : List (ℕ × ℕ × BitVec 32) :=
  -- HAS_WIFI
  (if b.wifi = .nowifi then [] else [(0, 0, b.wifiMailDispatch)]) ++
  [(0, 1, b.tunnelMailDispatch)] ++
  -- HAS_TR471
  (if b.soc = .an7581 ∧ b.wifi ≠ .nowifi then [(0, 4, b.wifiConfig)] else []) ++
  -- HAS_TUNNEL
  (if b.soc = .an7552 then [] else [(0, 5, b.hwnatMailDispatch)]) ++
  -- HAS_DBA
  (if b.soc = .an7583 ∧ b.wifi ≠ .nowifi then [(5, 3, b.dbaMailHandler)] else [])

/-! ## The table -/

/-- `&mbox_dispatch[core][off]` -/
def rowAt (core off : ℕ) : ℕ := 80 * core + off

/-- `((u32 *)&mbox_dispatch[core][48])[slot]` -/
def callbackAt (core slot : ℕ) : ℕ := rowAt core (48 + 4 * slot)

/-- `npu_memset(mbox_dispatch[i], 0, 80)` for every core -/
def clearRows (cores : ℕ) (m : Memory) : Memory := fun a =>
  if a < 80 * cores then Memory.byte 0 else m a

/-- The table as `mailbox_init` leaves it. -/
def mailboxInit (b : Build) (m : Memory) : Memory :=
  b.registered.foldl (fun m e => m.put32 (callbackAt e.1 e.2.1) e.2.2.toNat)
    (clearRows b.maxCoreNum m)

/-- The queue registers a core finds: `CTRL0`, `CTRL1`, `CTRL3`. -/
structure Mail where
  ctrl0 : BitVec 32
  ctrl1 : BitVec 32
  ctrl3 : BitVec 32

/-- The state `mbox_isr` works on, with what it did to the outside. -/
structure MboxState where
  mem : Memory
  /-- the last status written to `CTRL3` of each queue -/
  status : ℕ → BitVec 32
  /-- the handlers called: core, slot and address -/
  calls : List (ℕ × ℕ × BitVec 32)
  /-- the arguments of `mbox_notify_host` -/
  notified : List (ℕ × ℕ × BitVec 32)

/-- `cnt[func_idx] = (u16)max_cnt` -/
def storeCnt (m : Memory) (a v : ℕ) : Memory := (m.put8 a v).put8 (a + 1) (v / 256)

/-- `(rptr >> 11) & 0xF` -/
def funcIdx (rptr : BitVec 32) : ℕ := ((rptr >>> 11) &&& 0xF#32).toNat

/-- The raw data path. -/
def storeMail (core slot : ℕ) (basePtr maxCnt : BitVec 32) (m : Memory) : Memory :=
  storeCnt (m.put32 (rowAt core (4 * slot)) basePtr.toNat) (rowAt core (32 + 2 * slot))
    maxCnt.toNat

/-- The response status the isr sets when the sender does not wait. -/
def setResponse (rptr : BitVec 32) : BitVec 32 :=
  if rptr &&& 1#32 = 0#32 then
    ((rptr &&& 0xFF00#32) ||| (rptr &&& 0xE1#32) ||| 0x6#32) &&& 0xFFFF#32
  else rptr

/-- `mbox_isr` on a hart. `cleared` is the check of the interrupt status,
    `answer` is what the handler returns if one is called. -/
def mboxIsr (src : ℤ) (hart : ℕ) (mail : Mail) (cleared : Bool) (answer : BitVec 32)
    (s : MboxState) : MboxState :=
  let mboxIdx := ((src - 8) % 256).toNat
  if mboxIdx ≠ hart then s
  else if cleared = false then s
  else
    let basePtr := mail.ctrl0
    let maxCnt := mail.ctrl1 &&& 0xFFFF#32
    let rptr := setResponse (mail.ctrl3 &&& 0xFFFF#32)
    let s := { s with status := Function.update s.status mboxIdx rptr }
    let slot := funcIdx rptr
    if rptr &&& 0x20#32 ≠ 0#32 then
      { s with mem := storeMail mboxIdx slot basePtr maxCnt s.mem }
    else
      let handler := BitVec.ofNat 32 (s.mem.word32 (callbackAt mboxIdx slot))
      let s := if handler ≠ 0#32 then { s with calls := s.calls ++ [(hart, slot, handler)] } else s
      let ret := if handler ≠ 0#32 then answer else 0#32
      let rptr := if handler ≠ 0#32 then
          (rptr &&& 0xFFFFFFE3#32) ||| ((ret &&& 7#32) <<< 2)
        else rptr
      if rptr &&& 1#32 ≠ 0#32 then
        let done := (rptr ||| 2#32) &&& 0xFFFF#32
        { s with status := Function.update s.status mboxIdx done }
      else { s with notified := s.notified ++ [(hart, slot, ret)] }

/-- A mail interrupt on some hart. -/
structure MboxAction where
  src : ℤ
  hart : ℕ
  mail : Mail
  cleared : Bool
  answer : BitVec 32

/-- The mails of a build, from boot on. -/
def mboxSystem (b : Build) : StepSystem MboxState MboxAction where
  init s := (∃ m, s.mem = mailboxInit b m) ∧ s.calls = [] ∧ s.notified = []
  step s a s' := a.hart < b.maxCoreNum ∧
    s' = mboxIsr a.src a.hart a.mail a.cleared a.answer s

/-! ## What is asked -/

/-- The callback words stand, and only registered handlers were called. -/
structure MboxSafe (b : Build) (s : MboxState) : Prop where
  intact : ∀ core off, core < b.maxCoreNum → 48 ≤ off → off < 80 →
    s.mem (rowAt core off) = mailboxInit b (fun _ => 0) (rowAt core off)
  called : ∀ e ∈ s.calls, e ∈ b.registered

/-- The byte a store mail puts at an offset of its row. -/
def Mail.byteAt (mail : Mail) (off : ℕ) : Option Byte :=
  let slot := funcIdx mail.ctrl3
  let cnt := (mail.ctrl1 &&& 0xFFFF#32).toNat
  if off = 33 + 2 * slot then some (Memory.byte (cnt / 256))
  else if off = 32 + 2 * slot then some (Memory.byte cnt)
  else if 4 * slot ≤ off ∧ off < 4 * slot + 4 then
    some (Memory.byte (mail.ctrl0.toNat / 256 ^ (off - 4 * slot)))
  else none

/-- The mails that keep to the table: what a store mail puts over a
    callback word is there already, and a call mail's slot is below eight
    or finds a zero word. -/
def MailOk (s : MboxState) (a : MboxAction) : Prop :=
  ((a.src - 8) % 256).toNat = a.hart → a.cleared = true →
    if a.mail.ctrl3 &&& 0x20#32 ≠ 0#32 then
      ∀ off v, 48 ≤ off → a.mail.byteAt off = some v → s.mem (rowAt a.hart off) = v
    else
      funcIdx a.mail.ctrl3 < 8 ∨
        s.mem.word32 (callbackAt a.hart (funcIdx a.mail.ctrl3)) = 0

/-! ## The table after boot -/

section Table

variable {b : Build} {m m' : Memory} {core slot : ℕ}

theorem registered_lt {e : ℕ × ℕ × BitVec 32} (h : e ∈ b.registered) :
    e.1 < b.maxCoreNum ∧ e.2.1 < 8 := by
  obtain ⟨soc, wifi, h0, h1, h4, h5, h3⟩ := b
  unfold Build.registered at h
  cases soc <;> cases wifi <;> simp [Build.maxCoreNum] at h ⊢ <;> grind

/-- Writing the same words keeps two memories equal where they were. -/
theorem foldl_put32_congr (l : List (ℕ × ℕ × BitVec 32)) {a : ℕ} (h : m a = m' a) :
    l.foldl (fun m e => m.put32 (callbackAt e.1 e.2.1) e.2.2.toNat) m a =
      l.foldl (fun m e => m.put32 (callbackAt e.1 e.2.1) e.2.2.toNat) m' a := by
  induction l generalizing m m' with
  | nil => exact h
  | cons e l ih =>
    apply ih
    dsimp only
    rw [Memory.put32_apply, Memory.put32_apply, h]

/-- The table does not depend on what was there before boot. -/
theorem mailboxInit_eq (b : Build) (m m' : Memory) {a : ℕ} (h : a < 80 * b.maxCoreNum) :
    mailboxInit b m a = mailboxInit b m' a := by
  apply foldl_put32_congr
  unfold clearRows
  rw [if_pos h, if_pos h]

/-- Every nonzero callback word of a memory is in a list. -/
def Listed (done : List (ℕ × ℕ × BitVec 32)) (m : Memory) (cores : ℕ) : Prop :=
  ∀ core slot, core < cores → slot < 8 → m.word32 (callbackAt core slot) = 0 ∨
    (core, slot, BitVec.ofNat 32 (m.word32 (callbackAt core slot))) ∈ done

theorem Listed.foldl {done : List (ℕ × ℕ × BitVec 32)} {cores : ℕ} (h : Listed done m cores)
    (l : List (ℕ × ℕ × BitVec 32)) (hl : ∀ e ∈ l, e.2.1 < 8) :
    Listed (done ++ l) (l.foldl (fun m e => m.put32 (callbackAt e.1 e.2.1) e.2.2.toNat) m)
      cores := by
  induction l generalizing m done with
  | nil =>
    rw [List.append_nil]
    exact h
  | cons e l ih =>
    have hstep : Listed (done ++ [e]) (m.put32 (callbackAt e.1 e.2.1) e.2.2.toNat) cores := by
      intro core slot hcore hslot
      have he := hl e List.mem_cons_self
      by_cases hsame : core = e.1 ∧ slot = e.2.1
      · obtain ⟨rfl, rfl⟩ := hsame
        right
        rw [Memory.word32_put32_self _ _ e.2.2.isLt, BitVec.ofNat_toNat, BitVec.setWidth_eq]
        exact List.mem_append_right _ (List.mem_singleton.mpr rfl)
      · -- another word
        have hapart : callbackAt core slot + 4 ≤ callbackAt e.1 e.2.1 ∨
            callbackAt e.1 e.2.1 + 4 ≤ callbackAt core slot := by
          unfold callbackAt rowAt
          omega
        rw [Memory.word32_put32_of_ne _ _ hapart]
        exact (h core slot hcore hslot).imp_right fun hmem => List.mem_append_left _ hmem
    have hrest := ih hstep fun e' he' => hl e' (List.mem_cons_of_mem _ he')
    rw [List.append_assoc] at hrest
    exact hrest

/-- After boot a row's callbacks are the registered ones. -/
theorem listed_mailboxInit (b : Build) (m : Memory) :
    Listed b.registered (mailboxInit b m) b.maxCoreNum := by
  have hclear : Listed [] (clearRows b.maxCoreNum m) b.maxCoreNum := by
    intro core slot hcore hslot
    left
    have hin : callbackAt core slot + 4 ≤ 80 * b.maxCoreNum := by
      unfold callbackAt rowAt
      omega
    have hzero : ∀ i < 4, clearRows b.maxCoreNum m (callbackAt core slot + i) = Memory.byte 0 := by
      intro i hi
      unfold clearRows
      rw [if_pos (by omega)]
    have hword : (clearRows b.maxCoreNum m).word32 (callbackAt core slot)
        = Memory.word32 (fun _ => Memory.byte 0) 0 := Memory.word32_congr hzero
    rw [hword]
    rfl
  have hall := hclear.foldl b.registered fun e he => (registered_lt he).2
  rwa [List.nil_append] at hall

/-- While the callback words stand, a nonzero one was registered. -/
theorem MboxSafe.listed {s : MboxState} (h : MboxSafe b s) :
    Listed b.registered s.mem b.maxCoreNum := by
  intro core slot hcore hslot
  have hword : s.mem.word32 (callbackAt core slot)
      = (mailboxInit b fun _ => 0).word32 (callbackAt core slot) := by
    apply Memory.word32_congr
    intro i hi
    have hbyte := h.intact core (48 + 4 * slot + i) hcore (by omega) (by omega)
    have hat : rowAt core (48 + 4 * slot + i) = callbackAt core slot + i := by
      unfold callbackAt rowAt
      omega
    rwa [hat] at hbyte
  rw [hword]
  exact listed_mailboxInit b _ core slot hcore hslot

end Table

/-! ## One mail -/

/-- The response bits leave the slot and the path alone. -/
theorem funcIdx_setResponse (x : BitVec 32) :
    funcIdx (setResponse (x &&& 0xFFFF#32)) = funcIdx x := by
  have hbits : (setResponse (x &&& 0xFFFF#32) >>> 11) &&& 0xF#32 = (x >>> 11) &&& 0xF#32 := by
    unfold setResponse
    split <;>
    · apply BitVec.eq_of_getLsbD_eq
      intro i hi
      interval_cases i <;> simp
  unfold funcIdx
  rw [hbits]

theorem storeBit_setResponse (x : BitVec 32) :
    setResponse (x &&& 0xFFFF#32) &&& 0x20#32 = x &&& 0x20#32 := by
  unfold setResponse
  split <;>
  · apply BitVec.eq_of_getLsbD_eq
    intro i hi
    interval_cases i <;> simp

/-- What a store mail leaves at an address. -/
theorem storeMail_apply (core : ℕ) (mail : Mail) (m : Memory) (off : ℕ) :
    storeMail core (funcIdx mail.ctrl3) mail.ctrl0 (mail.ctrl1 &&& 0xFFFF#32) m (rowAt core off)
      = (mail.byteAt off).getD (m (rowAt core off)) := by
  unfold storeMail storeCnt Mail.byteAt
  dsimp only
  by_cases hhi : off = 33 + 2 * funcIdx mail.ctrl3
  · rw [if_pos hhi, hhi]
    have hat : rowAt core (33 + 2 * funcIdx mail.ctrl3)
        = rowAt core (32 + 2 * funcIdx mail.ctrl3) + 1 := by
      unfold rowAt
      omega
    rw [hat, Memory.put8_self]
    rfl
  · rw [if_neg hhi, Memory.put8_of_ne _ _ (by unfold rowAt; omega)]
    by_cases hlo : off = 32 + 2 * funcIdx mail.ctrl3
    · rw [if_pos hlo, hlo, Memory.put8_self]
      rfl
    · rw [if_neg hlo, Memory.put8_of_ne _ _ (by unfold rowAt; omega), Memory.put32_apply]
      by_cases hin : 4 * funcIdx mail.ctrl3 ≤ off ∧ off < 4 * funcIdx mail.ctrl3 + 4
      · have hoff : rowAt core off - rowAt core (4 * funcIdx mail.ctrl3)
            = off - 4 * funcIdx mail.ctrl3 := by
          unfold rowAt
          omega
        rw [if_pos hin, if_pos (by unfold rowAt; omega), hoff]
        rfl
      · rw [if_neg hin, if_neg (by unfold rowAt; omega)]
        rfl

/-- A store mail stays in its row. -/
theorem storeMail_of_ne (core : ℕ) {slot : ℕ} (hslot : slot < 16) (base cnt : BitVec 32)
    (m : Memory) {a : ℕ} (h : a < rowAt core 0 ∨ rowAt core 80 ≤ a) :
    storeMail core slot base cnt m a = m a := by
  unfold rowAt at h
  unfold storeMail storeCnt
  rw [Memory.put8_of_ne _ _ (by unfold rowAt; omega),
    Memory.put8_of_ne _ _ (by unfold rowAt; omega), Memory.put32_of_ne _ _ (by unfold rowAt; omega)]

theorem funcIdx_lt (x : BitVec 32) : funcIdx x < 16 := by
  unfold funcIdx
  rw [BitVec.toNat_and]
  exact Nat.lt_of_le_of_lt Nat.and_le_right (by decide)

section Isr

variable {b : Build} {s s' : MboxState} {src : ℤ} {hart : ℕ} {mail : Mail} {answer : BitVec 32}

/-- The interrupt of another core, or one that stays pending, does nothing. -/
theorem mboxIsr_ignored {cleared : Bool} (h : ¬(((src - 8) % 256).toNat = hart ∧ cleared = true)) :
    mboxIsr src hart mail cleared answer s = s := by
  unfold mboxIsr
  dsimp only
  by_cases hidx : ((src - 8) % 256).toNat ≠ hart
  · rw [if_pos hidx]
  · rw [if_neg hidx, if_pos]
    push Not at hidx
    exact Bool.not_eq_true _ ▸ fun hc => h ⟨hidx, hc⟩

theorem mboxIsr_store (hidx : ((src - 8) % 256).toNat = hart)
    (hbit : mail.ctrl3 &&& 0x20#32 ≠ 0#32) :
    (mboxIsr src hart mail true answer s).mem
        = storeMail hart (funcIdx mail.ctrl3) mail.ctrl0 (mail.ctrl1 &&& 0xFFFF#32) s.mem ∧
      (mboxIsr src hart mail true answer s).calls = s.calls := by
  have hpath : setResponse (mail.ctrl3 &&& 0xFFFF#32) &&& 0x20#32 ≠ 0#32 := by
    rw [storeBit_setResponse]
    exact hbit
  unfold mboxIsr
  dsimp only
  rw [if_neg (not_not.mpr hidx), if_neg (show ¬ (true = false) from nofun), if_pos hpath,
    funcIdx_setResponse, hidx]
  exact ⟨rfl, rfl⟩

theorem mboxIsr_call (hidx : ((src - 8) % 256).toNat = hart)
    (hbit : ¬ mail.ctrl3 &&& 0x20#32 ≠ 0#32) :
    (mboxIsr src hart mail true answer s).mem = s.mem ∧
      (mboxIsr src hart mail true answer s).calls =
        let slot := funcIdx mail.ctrl3
        let handler := BitVec.ofNat 32 (s.mem.word32 (callbackAt hart slot))
        if handler ≠ 0#32 then s.calls ++ [(hart, slot, handler)] else s.calls := by
  have hpath : ¬ setResponse (mail.ctrl3 &&& 0xFFFF#32) &&& 0x20#32 ≠ 0#32 := by
    rw [storeBit_setResponse]
    exact hbit
  unfold mboxIsr
  dsimp only
  rw [if_neg (not_not.mpr hidx), if_neg (show ¬ (true = false) from nofun), if_neg hpath,
    funcIdx_setResponse, hidx]
  by_cases hh : BitVec.ofNat 32 (s.mem.word32 (callbackAt hart (funcIdx mail.ctrl3))) ≠ 0#32
  · simp only [if_pos hh]
    split <;> exact ⟨rfl, rfl⟩
  · simp only [if_neg hh]
    split <;> exact ⟨rfl, rfl⟩

/-- A word of memory is zero as a machine word only if it is zero. -/
theorem ofNat_word32_eq_zero {m : Memory} {a : ℕ} (h : BitVec.ofNat 32 (m.word32 a) = 0#32) :
    m.word32 a = 0 := by
  have hlt : m.word32 a < 2 ^ 32 := by
    unfold Memory.word32
    have h0 := (m a).isLt
    have h1 := (m (a + 1)).isLt
    have h2 := (m (a + 2)).isLt
    have h3 := (m (a + 3)).isLt
    omega
  have hmod := congrArg BitVec.toNat h
  rw [BitVec.toNat_ofNat, Nat.mod_eq_of_lt hlt] at hmod
  exact hmod

/-- A mail keeps the table and the calls in order exactly when it keeps to
    the table. -/
theorem mboxIsr_safe_iff {cleared : Bool} (h : MboxSafe b s) (hhart : hart < b.maxCoreNum) :
    MboxSafe b (mboxIsr src hart mail cleared answer s) ↔
      MailOk s ⟨src, hart, mail, cleared, answer⟩ := by
  by_cases htaken : ((src - 8) % 256).toNat = hart ∧ cleared = true
  · obtain ⟨hidx, rfl⟩ := htaken
    by_cases hbit : mail.ctrl3 &&& 0x20#32 ≠ 0#32
    · -- a mail that stores data and calls nothing
      obtain ⟨hmem, hcalls⟩ := @mboxIsr_store s src hart mail answer hidx hbit
      have hok : MailOk s ⟨src, hart, mail, true, answer⟩ ↔
          ∀ off v, 48 ≤ off → mail.byteAt off = some v → s.mem (rowAt hart off) = v := by
        unfold MailOk
        dsimp only
        rw [if_pos hbit]
        exact ⟨fun hall => hall hidx rfl, fun hall _ _ => hall⟩
      rw [hok]
      constructor
      · -- a byte that differs would have changed a callback word
        intro hsafe off v hoff hv
        have hoff' : off < 80 := by
          have hslot := funcIdx_lt mail.ctrl3
          unfold Mail.byteAt at hv
          dsimp only at hv
          split_ifs at hv <;> omega
        have hnew := hsafe.intact hart off hhart hoff hoff'
        rw [hmem, storeMail_apply, hv, Option.getD_some] at hnew
        rw [h.intact hart off hhart hoff hoff', hnew]
      · intro hall
        refine ⟨?_, ?_⟩
        · intro core off hcore hlo hhi
          rw [hmem]
          -- the mail writes a row of its own hart only
          by_cases hrow : core = hart
          · subst hrow
            rw [storeMail_apply]
            cases hb : mail.byteAt off with
            | none => exact h.intact core off hcore hlo hhi
            | some v =>
              rw [Option.getD_some, ← hall off v hlo hb]
              exact h.intact core off hcore hlo hhi
          · rw [storeMail_of_ne _ (funcIdx_lt _) _ _ _ (by unfold rowAt; omega)]
            exact h.intact core off hcore hlo hhi
        · rw [hcalls]
          exact h.called
    · -- a mail that calls what the word holds, if it holds anything
      obtain ⟨hmem, hcalls⟩ := @mboxIsr_call s src hart mail answer hidx hbit
      have hok : MailOk s ⟨src, hart, mail, true, answer⟩ ↔ funcIdx mail.ctrl3 < 8 ∨
          s.mem.word32 (callbackAt hart (funcIdx mail.ctrl3)) = 0 := by
        unfold MailOk
        dsimp only
        rw [if_neg hbit]
        exact ⟨fun hall => hall hidx rfl, fun hall _ _ => hall⟩
      rw [hok]
      dsimp only at hcalls
      by_cases hh : BitVec.ofNat 32 (s.mem.word32 (callbackAt hart (funcIdx mail.ctrl3))) ≠ 0#32
      · rw [if_pos hh] at hcalls
        constructor
        · intro hsafe
          left
          -- the call is in the log, so it must be of a listed slot
          have hmem' := hsafe.called (hart, funcIdx mail.ctrl3, _) (by
            rw [hcalls]
            exact List.mem_append_right _ (List.mem_singleton.mpr rfl))
          exact (registered_lt hmem').2
        · intro hslot
          have hnz : s.mem.word32 (callbackAt hart (funcIdx mail.ctrl3)) ≠ 0 := by
            intro hz
            rw [hz] at hh
            exact hh rfl
          have hlt : funcIdx mail.ctrl3 < 8 := hslot.resolve_right hnz
          refine ⟨?_, ?_⟩
          · rw [hmem]
            exact h.intact
          · intro e he
            rw [hcalls] at he
            rcases List.mem_append.mp he with hold | hnew
            · exact h.called e hold
            · obtain rfl := List.mem_singleton.mp hnew
              exact (h.listed hart _ hhart hlt).resolve_left hnz
      · rw [if_neg hh] at hcalls
        push Not at hh
        refine iff_of_true ⟨?_, ?_⟩ (Or.inr (ofNat_word32_eq_zero hh))
        · rw [hmem]
          exact h.intact
        · rw [hcalls]
          exact h.called
  · -- a mail for another hart, or none: nothing happens
    rw [mboxIsr_ignored htaken]
    exact iff_of_true h fun hidx hcl => absurd ⟨hidx, hcl⟩ htaken

end Isr

/-! ## Every sequence of mails -/

theorem mboxSafe_init {b : Build} {s : MboxState} (h : (mboxSystem b).init s) : MboxSafe b s := by
  obtain ⟨⟨m, hmem⟩, hcalls, -⟩ := h
  refine ⟨?_, ?_⟩
  · intro core off hcore _ hoff
    rw [hmem]
    exact mailboxInit_eq b _ _ (by unfold rowAt; omega)
  · intro e he
    rw [hcalls] at he
    cases he

/-- While all mails keep to the table, the callback words stand and only
    registered handlers are called; the first mail that does not keep to
    it breaks this. -/
theorem mbox_safe_guarded (b : Build) (s : MboxState)
    (h : ((mboxSystem b).guarded MailOk).Reachable s) :
    MboxSafe b s ∧ ∀ a s', (mboxSystem b).step s a s' → (MboxSafe b s' ↔ MailOk s a) := by
  have hsafe : MboxSafe b s := by
    have hinit : ∀ s, ((mboxSystem b).guarded MailOk).init s → MboxSafe b s :=
      fun _ h0 => mboxSafe_init h0
    refine h.invariant hinit ?_
    rintro s a s' hs ⟨hok, hhart, rfl⟩
    exact (mboxIsr_safe_iff hs hhart).mpr hok
  refine ⟨hsafe, ?_⟩
  rintro a s' ⟨hhart, rfl⟩
  exact mboxIsr_safe_iff hsafe hhart

/-- A build with all handlers of core 0. -/
def an7581Kite : Build where
  soc := .an7581
  wifi := .kite
  wifiMailDispatch := 0x84001000
  tunnelMailDispatch := 0x84002000
  wifiConfig := 0x84003000
  hwnatMailDispatch := 0x84004000
  dbaMailHandler := 0x84005000

/-- The table right after boot. -/
def booted (b : Build) : MboxState where
  mem := mailboxInit b fun _ => 0
  status := fun _ => 0
  calls := []
  notified := []

/-- A mail the handler of slot 1 answers. -/
theorem mbox_safe_guarded_one : ∃ s, s.calls = [(0, 1, 0x84002000)] ∧ MboxSafe an7581Kite s := by
  have h0 : ((mboxSystem an7581Kite).guarded MailOk).Reachable (booted an7581Kite) :=
    .init ⟨⟨_, rfl⟩, rfl, rfl⟩
  have h1 := h0.step ⟨8, 0, ⟨0x90000000, 64, 0x800⟩, true, 0⟩
    ⟨fun _ _ => by rw [if_neg (by decide)]; exact Or.inl (by decide), by decide, rfl⟩
  exact ⟨_, by decide +kernel, (mbox_safe_guarded _ _ h1).1⟩

/-- The host stores a data word to slot 12 and then calls slot 0: the word
    is called. -/
theorem mbox_calls_data : ¬ ∀ b s, (mboxSystem b).Reachable s → MboxSafe b s := by
  intro hall
  have h0 : (mboxSystem an7581Kite).Reachable (booted an7581Kite) := .init ⟨⟨_, rfl⟩, rfl, rfl⟩
  have h1 := h0.step ⟨8, 0, ⟨0x12345678, 64, 0x6020⟩, true, 0⟩ ⟨by decide, rfl⟩
  have h2 := h1.step ⟨8, 0, ⟨0x90000000, 64, 0⟩, true, 0⟩ ⟨by decide, rfl⟩
  have hregistered := (hall _ _ h2).called (0, 0, 0x12345678) (by decide +kernel)
  exact absurd hregistered (by decide +kernel)

end ClankerNPU.Mbox
