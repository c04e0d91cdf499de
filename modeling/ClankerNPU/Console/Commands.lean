import ClankerNPU.Lib.StepSystem
import Mathlib.Data.Nat.Bitwise
import Mathlib.Logic.Function.Basic

/-! # The console's commands

    The receiver's interrupt feeds a byte to a parser that keeps a line in
    a buffer of 32 columns and reads a command from fixed columns when CR
    comes. The buffer is not cleared between lines, so a short line is
    read together with what is left of an earlier one. -/

namespace ClankerNPU.Console

/-! ## State -/

abbrev Byte := BitVec 8

def ch (c : Char) : Byte := BitVec.ofNat 8 c.toNat

/-- The CR byte -/
def cr : Byte := 13

/-- What a command does to a register. -/
inductive Access where
  | read (addr : ℕ)
  | write (addr val : ℕ)
  deriving DecidableEq

/-- What the console prints after a line. -/
inductive Reply where
  /-- "Error: exceed max_char_num:32 ... reset char_idx" -/
  | exceed
  /-- "Wrong Cmd: %s" and "Correct Cmd: 'rd regAddr' or 'wt regAddr val'" -/
  | wrong (shown : List Byte)
  /-- "Wrong Cmd: %s at char%d" -/
  | wrongAt (shown : List Byte) (pos : ℕ)
  /-- "wt(0x%x)==0x%x" -/
  | wt (addr val : ℕ)
  /-- "rd(0x%x)==0x%x" -/
  | rd (addr val : ℕ)

structure CmdState where
  /-- `uart_cmd_idx` -/
  idx : ℕ
  /-- `uart_cmd_buf` -/
  buf : ℕ → Byte
  regs : ℕ → ℕ
  /-- the commands' accesses so far -/
  accesses : List Access
  replies : List Reply

/-! ## The parser -/

/-- The columns `pos` to `pos + n - 1` -/
def columns (buf : ℕ → Byte) (pos n : ℕ) : List Byte := (List.range n).map fun i => buf (pos + i)

/-- The buffer as `%s` prints it -/
def shown (buf : ℕ → Byte) : List Byte := (columns buf 0 32).takeWhile fun c => c ≠ 0

/-- `hex_digit`; `none` is -1 -/
def hexDigit (c : Byte) : Option ℕ :=
  if 48 ≤ c.toNat ∧ c.toNat ≤ 57 then some (c.toNat - 48)
  else if 65 ≤ c.toNat ∧ c.toNat ≤ 70 then some (c.toNat - 65 + 10)
  else if 97 ≤ c.toNat ∧ c.toNat ≤ 102 then some (c.toNat - 97 + 10)
  else none

/-- The loop over the digits, `left` columns from `pos` on; an error is
    the column of a byte that is none. No digit is shifted out of its
    word. -/
def cmdDigits (buf : ℕ → Byte) : ℕ → ℕ → ℕ → ℕ → Except ℕ (ℕ × ℕ)
  | 0, _, addr, val => .ok (addr, val)
  | left + 1, pos, addr, val =>
    if pos = 11 then cmdDigits buf left (pos + 1) addr val
    else
      match hexDigit (buf pos) with
      | none => .error pos
      | some d =>
        if pos ≤ 10 then cmdDigits buf left (pos + 1) (addr ||| d <<< (4 * (10 - pos))) val
        else cmdDigits buf left (pos + 1) addr (val ||| d <<< (4 * (19 - pos)))

/-- A refused line: its CR becomes its end, and it is printed. -/
def CmdState.refuse (s : CmdState) (idx : ℕ) (reply : List Byte → Reply) : CmdState :=
  let buf := Function.update s.buf idx 0
  { s with buf := buf, idx := 0, replies := s.replies ++ [reply (shown buf)] }

/-- `uart_debug_cmd` -/
def uartDebugCmd (s : CmdState) (c : Byte) : CmdState :=
  let idx := s.idx
  if idx > 31 then { s with idx := 0, replies := s.replies ++ [.exceed] }
  else
    let s := { s with buf := Function.update s.buf idx c }
    if c ≠ cr then { s with idx := idx + 1 }
    else
      let wr := decide (s.buf 0 = ch 'w')
      if s.buf 1 ≠ (if wr then ch 't' else ch 'd') ∨ wr = false ∧ s.buf 0 ≠ ch 'r' then
        s.refuse idx .wrong
      else
        match cmdDigits s.buf (if wr then 17 else 8) 3 0 0 with
        | .error pos => s.refuse idx fun text => .wrongAt text pos
        | .ok (addr, val) =>
          if wr then
            let regs := Function.update s.regs addr val
            { s with
              idx := 0
              regs := regs
              accesses := s.accesses ++ [.write addr val, .read addr]
              replies := s.replies ++ [.wt addr (regs addr)] }
          else
            { s with
              idx := 0
              accesses := s.accesses ++ [.read addr]
              replies := s.replies ++ [.rd addr (s.regs addr)] }

/-- `uart_rx_isr` with the bytes the receiver holds: the last one is fed,
    0 if there is none. -/
def uartRxIsr (s : CmdState) (burst : List Byte) : CmdState := uartDebugCmd s (burst.getLastD 0)

/-! ## The commands -/

/-- The number some hex digits stand for -/
def hexField (ds : List Byte) : Option ℕ :=
  ds.foldlM (fun v c => (hexDigit c).map fun d => 16 * v + d) 0

/-- "rd AAAAAAAA" and "wt AAAAAAAA VVVVVVVV", and what they ask for -/
def commandOf (line : List Byte) : Option (List Access) :=
  if line.length = 11 ∧ line.take 3 = [ch 'r', ch 'd', ch ' '] then
    (hexField (line.drop 3)).map fun addr => [.read addr]
  else if line.length = 20 ∧ line.take 3 = [ch 'w', ch 't', ch ' '] then
    (hexField ((line.drop 3).take 8)).bind fun addr =>
      (hexField (line.drop 12)).map fun val => [.write addr val, .read addr]
  else none

/-- The line after another byte, and the accesses the lines so far ask
    for: a line ends with CR, or with the byte after its 32nd. -/
def lineNext (p : List Byte × List Access) (c : Byte) : List Byte × List Access :=
  if p.1.length > 31 then ([], p.2)
  else if c ≠ cr then (p.1 ++ [c], p.2)
  else ([], p.2 ++ (commandOf p.1).getD [])

def Access.apply (regs : ℕ → ℕ) : Access → ℕ → ℕ
  | read _ => regs
  | write addr val => Function.update regs addr val

/-- The console with the bytes it has received: the line they are in, what
    they ask for, and the registers at the start. -/
structure Run where
  console : CmdState
  line : List Byte
  due : List Access
  boot : ℕ → ℕ

/-- An interrupt that finds `burst` in the receiver. -/
def Run.next (r : Run) (burst : List Byte) : Run :=
  let p := burst.foldl lineNext (r.line, r.due)
  { r with console := uartRxIsr r.console burst, line := p.1, due := p.2 }

/-- The runs of the console over the bytes it receives. -/
def consoleRuns : StepSystem Run (List Byte) where
  init r := r.console = ⟨0, fun _ => 0, r.boot, [], []⟩ ∧ r.line = [] ∧ r.due = []
  step r burst r' := r' = r.next burst

/-- The commands of the lines received were executed, and nothing else. -/
def Run.Exact (r : Run) : Prop :=
  r.console.accesses = r.due ∧ r.console.regs = r.due.foldl Access.apply r.boot

/-- A line of `n` bytes that is no command but reads like one: its first
    two bytes are a command's, the address columns hold digits, and for a
    write the value columns too, but the line is longer than the command,
    or as long with another byte than a blank after the first two, or it
    ends in a column that is not looked at, so that digits of an earlier
    line are taken. -/
def Misread (buf : ℕ → Byte) (n : ℕ) : Prop :=
  buf 0 = ch 'r' ∧ buf 1 = ch 'd' ∧ (hexField (columns buf 3 8)).isSome ∧
      (n = 2 ∨ 11 < n ∨ n = 11 ∧ buf 2 ≠ ch ' ') ∨
    buf 0 = ch 'w' ∧ buf 1 = ch 't' ∧ (hexField (columns buf 3 8)).isSome ∧
      (hexField (columns buf 12 8)).isSome ∧
      (n = 2 ∨ n = 11 ∨ 20 < n ∨ n = 20 ∧ buf 2 ≠ ch ' ')

/-- The receiver holds one byte, and no line that reads like a command
    without being one ends. -/
def Run.Clean (r : Run) (burst : List Byte) : Prop :=
  ∃ c, burst = [c] ∧ (c = cr → r.console.idx ≤ 31 → ¬Misread r.console.buf r.console.idx)

/-! ## Digits -/

variable {buf : ℕ → Byte} {c : Byte} {d n pos v rest addr val : ℕ}

theorem hexDigit_lt (h : hexDigit c = some d) : d < 16 := by
  unfold hexDigit at h
  split_ifs at h <;> obtain rfl := Option.some.inj h <;> omega

theorem hexDigit_cr : hexDigit cr = none := by decide

/-- The number some more hex digits make of `v`. -/
def hexFrom (v : ℕ) (ds : List Byte) : Option ℕ :=
  ds.foldlM (fun v c => (hexDigit c).map fun d => 16 * v + d) v

theorem hexFrom_cons (v : ℕ) (c : Byte) (ds : List Byte) :
    hexFrom v (c :: ds) = (hexDigit c).bind fun d => hexFrom (16 * v + d) ds := by
  unfold hexFrom
  rw [List.foldlM_cons]
  cases hexDigit c <;> rfl

/-- A field with a CR in it is no number. -/
theorem hexFrom_of_cr {ds : List Byte} (h : cr ∈ ds) (v : ℕ) : hexFrom v ds = none := by
  induction ds generalizing v with
  | nil => exact absurd h List.not_mem_nil
  | cons c ds ih =>
    rw [hexFrom_cons]
    rcases List.mem_cons.mp h with rfl | h
    · rw [hexDigit_cr]
      rfl
    · cases hexDigit c with
      | none => rfl
      | some d => exact ih h _

theorem columns_succ (buf : ℕ → Byte) (pos n : ℕ) :
    columns buf pos (n + 1) = buf pos :: columns buf (pos + 1) n := by
  unfold columns
  rw [List.range_succ_eq_map, List.map_cons, List.map_map]
  refine congrArg (buf pos :: ·) (List.map_congr_left fun i _ => ?_)
  exact congrArg buf (by omega)

/-- A digit goes into the four bits below those of the digits before. -/
theorem shift_or_digit (v k : ℕ) (hd : d < 16) :
    v <<< (4 * (k + 1)) ||| d <<< (4 * k) = (16 * v + d) <<< (4 * k) := by
  have hlow : v <<< 4 ||| d = 16 * v + d := by
    rw [← Nat.shiftLeft_add_eq_or_of_lt (show d < 2 ^ 4 from hd), Nat.shiftLeft_eq]
    omega
  rw [show 4 * (k + 1) = 4 + 4 * k by omega, Nat.shiftLeft_add, ← Nat.shiftLeft_or_distrib, hlow]

/-- The loop over the address columns. -/
theorem cmdDigits_addr (buf : ℕ → Byte) (n rest v val : ℕ) {pos : ℕ} (hpos : pos + n = 11) :
    (cmdDigits buf (n + rest) pos (v <<< (4 * n)) val).toOption
      = (hexFrom v (columns buf pos n)).bind fun v' => (cmdDigits buf rest 11 v' val).toOption := by
  induction n generalizing pos v with
  | zero =>
    obtain rfl : pos = 11 := hpos
    rw [Nat.zero_add, Nat.mul_zero, Nat.shiftLeft_zero]
    rfl
  | succ n ih =>
    rw [columns_succ, hexFrom_cons, Nat.add_right_comm, cmdDigits, if_neg (by omega)]
    cases hdigit : hexDigit (buf pos) with
    | none => rfl
    | some d =>
      dsimp only
      rw [if_pos (by omega), show 10 - pos = n by omega, shift_or_digit v n (hexDigit_lt hdigit)]
      exact ih _ (by omega)

/-- The loop over the value columns. -/
theorem cmdDigits_val (buf : ℕ → Byte) (n v addr : ℕ) {pos : ℕ} (hpos : pos + n = 20) (hlt : 11 < pos) :
    (cmdDigits buf n pos addr (v <<< (4 * n))).toOption
      = (hexFrom v (columns buf pos n)).map fun v' => (addr, v') := by
  induction n generalizing pos v with
  | zero =>
    rw [Nat.mul_zero, Nat.shiftLeft_zero]
    rfl
  | succ n ih =>
    rw [columns_succ, hexFrom_cons, cmdDigits, if_neg (by omega)]
    cases hdigit : hexDigit (buf pos) with
    | none => rfl
    | some d =>
      dsimp only
      rw [if_neg (by omega), show 19 - pos = n by omega, shift_or_digit v n (hexDigit_lt hdigit)]
      exact ih _ (by omega) (by omega)

theorem cmdDigits_rd (buf : ℕ → Byte) :
    (cmdDigits buf 8 3 0 0).toOption = (hexField (columns buf 3 8)).map fun addr => (addr, 0) := by
  have haddr := cmdDigits_addr buf 8 0 0 0 rfl
  rw [Nat.zero_shiftLeft] at haddr
  exact haddr.trans (Option.map_eq_bind ..).symm

theorem cmdDigits_wt (buf : ℕ → Byte) :
    (cmdDigits buf 17 3 0 0).toOption = (hexField (columns buf 3 8)).bind fun addr =>
      (hexField (columns buf 12 8)).map fun val => (addr, val) := by
  have haddr := cmdDigits_addr buf 8 9 0 0 rfl
  have hval : ∀ addr, (cmdDigits buf 9 11 addr 0).toOption
      = (hexField (columns buf 12 8)).map fun val => (addr, val) := by
    intro addr
    have hval := cmdDigits_val buf 8 0 addr (show 12 + 8 = 20 from rfl) (by decide)
    rw [Nat.zero_shiftLeft] at hval
    exact hval
  rw [Nat.zero_shiftLeft] at haddr
  rw [haddr]
  exact congrArg ((hexField (columns buf 3 8)).bind ·) (funext hval)

/-! ## The end of a line -/

/-- What a read asks for, once its first two bytes are there. -/
def rdFields (buf : ℕ → Byte) : Option (List Access) :=
  (hexField (columns buf 3 8)).map fun addr => [.read addr]

def wtFields (buf : ℕ → Byte) : Option (List Access) :=
  (hexField (columns buf 3 8)).bind fun addr =>
    (hexField (columns buf 12 8)).map fun val => [.write addr val, .read addr]

/-- What the buffer asks for at a CR. -/
def asked (buf : ℕ → Byte) : Option (List Access) :=
  if buf 0 = ch 'w' then if buf 1 = ch 't' then wtFields buf else none
  else if buf 0 = ch 'r' ∧ buf 1 = ch 'd' then rdFields buf
  else none

/-- The accesses go through, and nothing else happens to the registers. -/
structure Executes (s s' : CmdState) (more : List Access) : Prop where
  idx : s'.idx = 0
  accesses : s'.accesses = s.accesses ++ more
  regs : s'.regs = more.foldl Access.apply s.regs

theorem executes_refuse (s : CmdState) (buf : ℕ → Byte) (idx : ℕ) (reply : List Byte → Reply) :
    Executes s (CmdState.refuse { s with buf := buf } idx reply) [] where
  idx := rfl
  accesses := (List.append_nil _).symm
  regs := rfl

theorem toOption_error {e : Except ℕ (ℕ × ℕ)} (h : e.toOption = none) : ∃ pos, e = .error pos := by
  cases e with
  | error pos => exact ⟨pos, rfl⟩
  | ok p => cases h

theorem toOption_ok {e : Except ℕ (ℕ × ℕ)} {p : ℕ × ℕ} (h : e.toOption = some p) : e = .ok p := by
  cases e with
  | error pos => cases h
  | ok q => exact congrArg Except.ok (Option.some.inj h)

/-- At a CR the console does what the buffer asks for. -/
theorem uartDebugCmd_cr (s : CmdState) (h : s.idx ≤ 31) :
    Executes s (uartDebugCmd s cr) ((asked (Function.update s.buf s.idx cr)).getD []) := by
  unfold uartDebugCmd asked
  dsimp only
  rw [if_neg (by omega), if_neg (by simp)]
  generalize Function.update s.buf s.idx cr = buf
  by_cases hw : buf 0 = ch 'w'
  · by_cases ht : buf 1 = ch 't'
    · have hdigits := cmdDigits_wt buf
      simp only [hw, ht, decide_true, if_true, ne_eq, not_true_eq_false, Bool.true_eq_false,
        false_and, or_self, if_false]
      unfold wtFields
      cases haddr : hexField (columns buf 3 8) with
      | none =>
        rw [haddr] at hdigits
        obtain ⟨pos, hpos⟩ := toOption_error hdigits
        rw [hpos]
        exact executes_refuse _ _ _ _
      | some addr =>
        cases hval : hexField (columns buf 12 8) with
        | none =>
          rw [haddr, hval] at hdigits
          obtain ⟨pos, hpos⟩ := toOption_error hdigits
          rw [hpos]
          exact executes_refuse _ _ _ _
        | some val =>
          rw [haddr, hval] at hdigits
          rw [toOption_ok hdigits]
          exact ⟨rfl, rfl, rfl⟩
    · simp only [hw, ht, decide_true, if_true, ne_eq, not_false_eq_true, true_or, if_false]
      exact executes_refuse _ _ _ _
  · by_cases hr : buf 0 = ch 'r' ∧ buf 1 = ch 'd'
    · have hdigits := cmdDigits_rd buf
      have hne : ¬ch 'r' = ch 'w' := by decide
      simp only [hne, hr.1, hr.2, decide_false, Bool.false_eq_true, if_false, ne_eq,
        not_true_eq_false, and_false, or_self, true_and, if_true]
      unfold rdFields
      cases haddr : hexField (columns buf 3 8) with
      | none =>
        rw [haddr] at hdigits
        obtain ⟨pos, hpos⟩ := toOption_error hdigits
        rw [hpos]
        exact executes_refuse _ _ _ _
      | some addr =>
        rw [haddr] at hdigits
        rw [toOption_ok hdigits]
        exact ⟨rfl, rfl, rfl⟩
    · have hother : buf 1 ≠ ch 'd' ∨ buf 0 ≠ ch 'r' := by
        rw [← not_and_or]
        exact fun h => hr h.symm
      simp only [hw, hr, decide_false, Bool.false_eq_true, if_false, true_and]
      rw [if_pos hother]
      exact executes_refuse _ _ _ _

/-- The columns of a line before its end -/
theorem columns_update (buf : ℕ → Byte) (n : ℕ) :
    (∀ pos k, pos + k ≤ n ∨ n < pos →
      columns (Function.update buf n cr) pos k = columns buf pos k) ∧
    ∀ pos k v, pos ≤ n → n < pos + k →
      hexFrom v (columns (Function.update buf n cr) pos k) = none := by
  constructor
  · intro pos k hout
    refine List.map_congr_left fun i hi => Function.update_of_ne ?_ _ _
    have := List.mem_range.mp hi
    omega
  · intro pos k v hle hlt
    refine hexFrom_of_cr (List.mem_map.mpr ⟨n - pos, List.mem_range.mpr (by omega), ?_⟩) v
    rw [Nat.add_sub_cancel' hle, Function.update_self]

/-- A read asks for what the line is, but for a misread one. -/
theorem commandOf_columns (buf : ℕ → Byte) (n : ℕ) :
    commandOf (columns buf 0 n) =
      if n = 11 ∧ buf 0 = ch 'r' ∧ buf 1 = ch 'd' ∧ buf 2 = ch ' ' then rdFields buf
      else if n = 20 ∧ buf 0 = ch 'w' ∧ buf 1 = ch 't' ∧ buf 2 = ch ' ' then wtFields buf
      else none := by
  have hlen : (columns buf 0 n).length = n := by
    rw [columns, List.length_map, List.length_range]
  unfold commandOf
  rw [hlen]
  by_cases hrd : n = 11
  · subst hrd
    have hhead : (columns buf 0 11).take 3 = [buf 0, buf 1, buf 2] := rfl
    have htail : (columns buf 0 11).drop 3 = columns buf 3 8 := rfl
    rw [hhead, htail]
    have hwt : ∀ p : Prop, ¬(11 = 20 ∧ p) := fun p h => absurd h.1 (by decide)
    rw [if_neg (hwt _), if_neg (hwt _)]
    simp only [List.cons.injEq, and_true, true_and]
    rfl
  · by_cases hwt : n = 20
    · subst hwt
      have hhead : (columns buf 0 20).take 3 = [buf 0, buf 1, buf 2] := rfl
      have haddr : ((columns buf 0 20).drop 3).take 8 = columns buf 3 8 := rfl
      have hval : (columns buf 0 20).drop 12 = columns buf 12 8 := rfl
      have hrd : ∀ p : Prop, ¬(20 = 11 ∧ p) := fun p h => absurd h.1 (by decide)
      rw [hhead, haddr, hval, if_neg (hrd _), if_neg (hrd _)]
      simp only [List.cons.injEq, and_true, true_and]
      rfl
    · simp only [hrd, hwt, false_and, if_false]

theorem rdFields_eq_none : rdFields buf = none ↔ ¬(hexField (columns buf 3 8)).isSome := by
  unfold rdFields
  cases hexField (columns buf 3 8) <;> simp

theorem wtFields_eq_none : wtFields buf = none ↔
    ¬((hexField (columns buf 3 8)).isSome ∧ (hexField (columns buf 12 8)).isSome) := by
  unfold wtFields
  cases hexField (columns buf 3 8) <;> cases hexField (columns buf 12 8) <;> simp

theorem asked_wt (h0 : buf 0 = ch 'w') (h1 : buf 1 = ch 't') : asked buf = wtFields buf := by
  rw [asked, if_pos h0, if_pos h1]

theorem asked_rd (h0 : buf 0 = ch 'r') (h1 : buf 1 = ch 'd') : asked buf = rdFields buf := by
  rw [asked, if_neg (by rw [h0]; decide), if_pos ⟨h0, h1⟩]

theorem asked_none (hwt : ¬(buf 0 = ch 'w' ∧ buf 1 = ch 't'))
    (hrd : ¬(buf 0 = ch 'r' ∧ buf 1 = ch 'd')) : asked buf = none := by
  unfold asked
  by_cases h0 : buf 0 = ch 'w'
  · rw [if_pos h0, if_neg fun h1 => hwt ⟨h0, h1⟩]
  · rw [if_neg h0, if_neg hrd]

/-- What the fields ask for is what a line of the form asks for, unless
    they hold digits and the line has another form. -/
theorem fields_iff {fields : Option (List Access)} {form digits : Prop} [Decidable form]
    (h : fields = none ↔ ¬digits) :
    (fields = if form then fields else none) ↔ ¬(digits ∧ ¬form) := by
  by_cases hform : form
  · rw [if_pos hform]
    exact iff_of_true rfl fun hand => hand.2 hform
  · rw [if_neg hform, h]
    exact ⟨fun hd hand => hd hand.1, fun hand hd => hand ⟨hd, hform⟩⟩

/-- A write's line: its CR is in no column looked at, or the fields hold
    no number. -/
theorem wt_iff (h2 : 2 ≤ n) :
    (wtFields (Function.update buf n cr) =
        if n = 20 ∧ buf 2 = ch ' ' then wtFields buf else none) ↔
      ¬((hexField (columns buf 3 8)).isSome ∧ (hexField (columns buf 12 8)).isSome ∧
        (n = 2 ∨ n = 11 ∨ 20 < n ∨ n = 20 ∧ buf 2 ≠ ch ' ')) := by
  obtain ⟨hout, hin⟩ := columns_update buf n
  by_cases hcut : 3 ≤ n ∧ n ≤ 10 ∨ 12 ≤ n ∧ n ≤ 19
  · have hnone : wtFields (Function.update buf n cr) = none := by
      rw [wtFields_eq_none]
      rintro ⟨haddr, hval⟩
      rcases hcut with hcut | hcut
      · rw [hexField, ← hexFrom, hin 3 8 0 (by omega) (by omega)] at haddr
        exact absurd haddr (by decide)
      · rw [hexField, ← hexFrom, hin 12 8 0 (by omega) (by omega)] at hval
        exact absurd hval (by decide)
    rw [hnone, if_neg (by omega)]
    exact iff_of_true rfl (by omega)
  · have hsame : wtFields (Function.update buf n cr) = wtFields buf := by
      rw [wtFields, hout 3 8 (by omega), hout 12 8 (by omega), wtFields]
    have hform : (n = 2 ∨ n = 11 ∨ 20 < n ∨ n = 20 ∧ buf 2 ≠ ch ' ') ↔
        ¬(n = 20 ∧ buf 2 = ch ' ') := by
      by_cases hn : n = 20
      · rw [← not_iff_not]
        simp [hn]
      · exact iff_of_true (by omega) fun h => hn h.1
    rw [hsame, fields_iff wtFields_eq_none, hform, and_assoc]

/-- A read's line. -/
theorem rd_iff (h2 : 2 ≤ n) :
    (rdFields (Function.update buf n cr) =
        if n = 11 ∧ buf 2 = ch ' ' then rdFields buf else none) ↔
      ¬((hexField (columns buf 3 8)).isSome ∧ (n = 2 ∨ 11 < n ∨ n = 11 ∧ buf 2 ≠ ch ' ')) := by
  obtain ⟨hout, hin⟩ := columns_update buf n
  by_cases hcut : 3 ≤ n ∧ n ≤ 10
  · have hnone : rdFields (Function.update buf n cr) = none := by
      rw [rdFields_eq_none]
      intro haddr
      rw [hexField, ← hexFrom, hin 3 8 0 (by omega) (by omega)] at haddr
      exact absurd haddr (by decide)
    rw [hnone, if_neg (by omega)]
    exact iff_of_true rfl (by omega)
  · have hsame : rdFields (Function.update buf n cr) = rdFields buf := by
      rw [rdFields, hout 3 8 (by omega), rdFields]
    have hform : (n = 2 ∨ 11 < n ∨ n = 11 ∧ buf 2 ≠ ch ' ') ↔ ¬(n = 11 ∧ buf 2 = ch ' ') := by
      by_cases hn : n = 11
      · rw [← not_iff_not]
        simp [hn]
      · exact iff_of_true (by omega) fun h => hn h.1
    rw [hsame, fields_iff rdFields_eq_none, hform]

/-- At the end of a line the buffer asks for what the line is exactly when
    the line is not misread. -/
theorem asked_iff (buf : ℕ → Byte) (n : ℕ) :
    asked (Function.update buf n cr) = commandOf (columns buf 0 n) ↔ ¬Misread buf n := by
  -- a byte other than CR is the line's own
  have hbyte : ∀ k a, a ≠ cr → (Function.update buf n cr k = a ↔ k ≠ n ∧ buf k = a) := by
    intro k a ha
    by_cases hk : k = n
    · subst hk
      rw [Function.update_self]
      exact iff_of_false ha.symm fun h => h.1 rfl
    · rw [Function.update_of_ne hk]
      exact ⟨fun h => ⟨hk, h⟩, And.right⟩
  have hw := hbyte 0 (ch 'w') (by decide)
  have ht := hbyte 1 (ch 't') (by decide)
  have hr := hbyte 0 (ch 'r') (by decide)
  have hd := hbyte 1 (ch 'd') (by decide)
  have hwr : ¬ch 'w' = ch 'r' := by decide
  have hrw : ¬ch 'r' = ch 'w' := by decide
  rw [commandOf_columns]
  unfold Misread
  by_cases h2 : 2 ≤ n
  · have h0n : 0 ≠ n := by omega
    have h1n : 1 ≠ n := by omega
    by_cases hwt : buf 0 = ch 'w' ∧ buf 1 = ch 't'
    · rw [asked_wt (hw.mpr ⟨h0n, hwt.1⟩) (ht.mpr ⟨h1n, hwt.2⟩)]
      simp only [hwt.1, hwt.2, hwr, false_and, and_false, if_false, true_and, false_or]
      exact wt_iff h2
    · by_cases hrd : buf 0 = ch 'r' ∧ buf 1 = ch 'd'
      · rw [asked_rd (hr.mpr ⟨h0n, hrd.1⟩) (hd.mpr ⟨h1n, hrd.2⟩)]
        simp only [hrd.1, hrd.2, hrw, false_and, and_false, if_false, true_and, or_false]
        exact rd_iff h2
      · rw [asked_none (fun h => hwt ⟨(hw.mp h.1).2, (ht.mp h.2).2⟩)
          fun h => hrd ⟨(hr.mp h.1).2, (hd.mp h.2).2⟩,
          if_neg fun h => hrd ⟨h.2.1, h.2.2.1⟩, if_neg fun h => hwt ⟨h.2.1, h.2.2.1⟩]
        refine iff_of_true rfl ?_
        rintro (⟨h0, h1, -⟩ | ⟨h0, h1, -⟩)
        · exact hrd ⟨h0, h1⟩
        · exact hwt ⟨h0, h1⟩
  · -- the CR stands in one of the first two columns
    rw [asked_none, if_neg (by omega), if_neg (by omega)]
    · exact iff_of_true rfl (by omega)
    · intro h
      have := (hw.mp h.1).1
      have := (ht.mp h.2).1
      omega
    · intro h
      have := (hr.mp h.1).1
      have := (hd.mp h.2).1
      omega

/-! ## Runs -/

theorem rdFields_ne_nil (buf : ℕ → Byte) : rdFields buf ≠ some [] := by
  unfold rdFields
  cases hexField (columns buf 3 8) <;> simp

theorem wtFields_ne_nil (buf : ℕ → Byte) : wtFields buf ≠ some [] := by
  unfold wtFields
  cases hexField (columns buf 3 8) <;> cases hexField (columns buf 12 8) <;> simp

theorem asked_ne_nil (buf : ℕ → Byte) : asked buf ≠ some [] := by
  unfold asked
  split_ifs
  · exact wtFields_ne_nil buf
  · exact nofun
  · exact rdFields_ne_nil buf
  · exact nofun

theorem commandOf_ne_nil (buf : ℕ → Byte) (n : ℕ) : commandOf (columns buf 0 n) ≠ some [] := by
  rw [commandOf_columns]
  split_ifs
  · exact rdFields_ne_nil buf
  · exact wtFields_ne_nil buf
  · exact nofun

/-- A command asks for something. -/
theorem eq_of_getD_eq {a b : Option (List Access)} (ha : a ≠ some []) (hb : b ≠ some [])
    (h : a.getD [] = b.getD []) : a = b := by
  cases a with
  | none =>
    cases b with
    | none => rfl
    | some y => exact absurd (congrArg some h.symm) hb
  | some x =>
    cases b with
    | none => exact absurd (congrArg some h) ha
    | some y => exact congrArg some h

/-- What holds while the console is exact: the line is in the buffer. -/
structure RunInv (r : Run) : Prop where
  exact_so_far : r.Exact
  line : r.line = columns r.console.buf 0 r.console.idx
  idx_le : r.console.idx ≤ 32

variable {r : Run}

theorem columns_length (buf : ℕ → Byte) (pos n : ℕ) : (columns buf pos n).length = n := by
  rw [columns, List.length_map, List.length_range]

/-- A byte in a line that has room goes to its end. -/
theorem RunInv.byte (h : RunInv r) (hidx : r.console.idx ≤ 31) (hc : c ≠ cr) :
    RunInv (r.next [c]) := by
  have hlen : r.line.length = r.console.idx := by rw [h.line, columns_length]
  have hline : lineNext (r.line, r.due) c = (r.line ++ [c], r.due) := by
    rw [lineNext, if_neg (by rw [hlen]; omega), if_pos hc]
  have hcmd : uartRxIsr r.console [c] = { r.console with
      buf := Function.update r.console.buf r.console.idx c, idx := r.console.idx + 1 } := by
    show uartDebugCmd r.console c = _
    unfold uartDebugCmd
    dsimp only
    rw [if_neg (by omega), if_pos hc]
  unfold Run.next
  rw [hcmd, List.foldl_cons, List.foldl_nil, hline]
  constructor
  case exact_so_far => exact h.exact_so_far
  case line =>
    have hrest : (List.range r.console.idx).map (fun i =>
        Function.update r.console.buf r.console.idx c (0 + i))
        = (List.range r.console.idx).map fun i => r.console.buf (0 + i) :=
      List.map_congr_left fun i hi =>
        Function.update_of_ne (by have := List.mem_range.mp hi; omega) _ _
    dsimp only
    rw [columns, List.range_succ, List.map_append, List.map_singleton, hrest, h.line,
      Nat.zero_add, Function.update_self]
    rfl
  case idx_le => exact Nat.succ_le_succ hidx

/-- The byte after the 32nd ends the line. -/
theorem RunInv.exceed (h : RunInv r) (hidx : 31 < r.console.idx) (c : Byte) :
    RunInv (r.next [c]) := by
  have hlen : r.line.length = r.console.idx := by rw [h.line, columns_length]
  have hline : lineNext (r.line, r.due) c = ([], r.due) := by
    rw [lineNext, if_pos (by rw [hlen]; exact hidx)]
  have hcmd : uartRxIsr r.console [c] = { r.console with
      idx := 0, replies := r.console.replies ++ [.exceed] } := by
    show uartDebugCmd r.console c = _
    unfold uartDebugCmd
    dsimp only
    rw [if_pos hidx]
  unfold Run.next
  rw [hcmd, List.foldl_cons, List.foldl_nil, hline]
  exact ⟨h.exact_so_far, rfl, Nat.zero_le _⟩

/-- A CR that ends a line: the console stays exact exactly when the line
    is not misread. -/
theorem RunInv.endLine (h : RunInv r) (hidx : r.console.idx ≤ 31) :
    ((r.next [cr]).Exact ↔ ¬Misread r.console.buf r.console.idx) ∧
      (r.next [cr]).console.idx = 0 ∧ (r.next [cr]).line = [] := by
  have hlen : r.line.length = r.console.idx := by rw [h.line, columns_length]
  have hline : lineNext (r.line, r.due) cr = ([], r.due ++ (commandOf r.line).getD []) := by
    rw [lineNext, if_neg (by rw [hlen]; omega), if_neg (by simp)]
  have hexec := uartDebugCmd_cr r.console hidx
  obtain ⟨hacc, hregs⟩ := h.exact_so_far
  refine ⟨?_, hexec.idx, ?_⟩
  · unfold Run.Exact Run.next
    rw [List.foldl_cons, List.foldl_nil, hline, h.line]
    show (uartDebugCmd r.console cr).accesses = _ ∧ (uartDebugCmd r.console cr).regs = _ ↔ _
    rw [hexec.accesses, hexec.regs, hacc, hregs, ← asked_iff, List.foldl_append]
    constructor
    · rintro ⟨hsame, -⟩
      exact eq_of_getD_eq (asked_ne_nil _) (commandOf_ne_nil _ _) (List.append_cancel_left hsame)
    · intro hsame
      rw [hsame]
      exact ⟨rfl, rfl⟩
  · unfold Run.next
    rw [List.foldl_cons, List.foldl_nil, hline]

theorem RunInv.next {burst : List Byte} (h : RunInv r) (hclean : r.Clean burst) :
    RunInv (r.next burst) := by
  obtain ⟨c, rfl, hline⟩ := hclean
  rcases Nat.lt_or_ge 31 r.console.idx with hlt | hle
  · exact h.exceed hlt c
  · by_cases hc : c = cr
    · subst hc
      obtain ⟨hexact, hidx, hnil⟩ := h.endLine hle
      refine ⟨hexact.mpr (hline rfl hle), ?_, by omega⟩
      rw [hnil, hidx]
      rfl
    · exact h.byte hle hc

theorem runInv_of_reachable (h : (consoleRuns.guarded Run.Clean).Reachable r) : RunInv r := by
  refine h.invariant ?_ ?_
  · rintro r ⟨hconsole, hline, hdue⟩
    refine ⟨?_, ?_, ?_⟩
    · rw [Run.Exact, hconsole, hdue]
      exact ⟨rfl, rfl⟩
    · rw [hline, hconsole]
      rfl
    · rw [hconsole]
      exact Nat.zero_le _
  · rintro r burst _ hinv ⟨hclean, rfl⟩
    exact hinv.next hclean

/-- In every run that finds one byte at each interrupt and ends no misread
    line, the commands received are executed and nothing else; and a CR
    alone keeps it so exactly when the line it ends is not misread. -/
theorem exact_of_clean (r : Run) (h : (consoleRuns.guarded Run.Clean).Reachable r) :
    r.Exact ∧ (r.console.idx ≤ 31 →
      ((r.next [cr]).Exact ↔ ¬Misread r.console.buf r.console.idx)) :=
  ⟨(runInv_of_reachable h).exact_so_far, fun hidx => ((runInv_of_reachable h).endLine hidx).1⟩

/-- The console after some bytes, one at each interrupt -/
def typed (bytes : List Byte) : Run :=
  bytes.foldl (fun r c => r.next [c]) ⟨⟨0, fun _ => 0, fun _ => 0, [], []⟩, [], [], fun _ => 0⟩

def text (s : String) : List Byte := s.toList.map ch

instance (buf : ℕ → Byte) (n : ℕ) : Decidable (Misread buf n) :=
  inferInstanceAs (Decidable (_ ∨ _))

/-- No CR among the bytes typed ends a misread line. -/
def readsTrue : Run → List Byte → Bool
  | _, [] => true
  | r, c :: bytes =>
    decide (c = cr → r.console.idx ≤ 31 → ¬Misread r.console.buf r.console.idx) &&
      readsTrue (r.next [c]) bytes

theorem typed_clean {bytes : List Byte} (h : readsTrue (typed []) bytes = true) :
    (consoleRuns.guarded Run.Clean).Reachable (typed bytes) := by
  have hall : ∀ (bytes : List Byte) (r : Run), (consoleRuns.guarded Run.Clean).Reachable r →
      readsTrue r bytes = true →
      (consoleRuns.guarded Run.Clean).Reachable (bytes.foldl (fun r c => r.next [c]) r) := by
    intro bytes
    -- one interrupt for each byte
    induction bytes with
    | nil => exact fun r hr _ => hr
    | cons c bytes ih =>
      intro r hr htrue
      obtain ⟨hc, hrest⟩ := (Bool.and_eq_true _ _).mp htrue
      exact ih _ (.step [c] hr ⟨⟨c, rfl, of_decide_eq_true hc⟩, rfl⟩) hrest
  exact hall bytes _ (.init ⟨rfl, rfl, rfl⟩) h

/-- A write ended by its CR, and a read whose CR is still to come -/
def writeRead : Run := typed (text "wt 1E000000 00000001" ++ [cr] ++ text "rd 1E000000")

theorem exact_writeRead :
    writeRead.console.accesses = [.write 0x1E000000 1, .read 0x1E000000] ∧
      writeRead.Exact ∧ (writeRead.console.idx ≤ 31 → ((writeRead.next [cr]).Exact ↔
        ¬Misread writeRead.console.buf writeRead.console.idx)) :=
  ⟨by decide +kernel, exact_of_clean writeRead (typed_clean (by decide +kernel))⟩

/-- A write, and a line of two bytes -/
def writeAgain : List Byte := text "wt 1E000000 00000001" ++ [cr] ++ text "wt" ++ [cr]

theorem typed_reachable (bytes : List Byte) : consoleRuns.Reachable (typed bytes) := by
  have hall : ∀ (bytes : List Byte) (r : Run), consoleRuns.Reachable r →
      consoleRuns.Reachable (bytes.foldl (fun r c => r.next [c]) r) := by
    intro bytes
    induction bytes with
    | nil => exact fun r h => h
    | cons c bytes ih => exact fun r h => ih _ (.step [c] h rfl)
  exact hall bytes _ (.init ⟨rfl, rfl, rfl⟩)

/-- The line "wt" writes the register of the line before it once more. -/
theorem wt_writes_again : ¬∀ r, consoleRuns.Reachable r → r.Exact := by
  intro hall
  obtain ⟨hacc, -⟩ := hall _ (typed_reachable writeAgain)
  exact absurd hacc (by decide +kernel)

end ClankerNPU.Console
