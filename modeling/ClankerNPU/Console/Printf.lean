import ClankerNPU.Console.Commands

/-! # The formatter

    A format is a list of pieces: literal bytes and the directives the
    formatter supports, each with the flags, widths and modifiers that C
    gives a meaning to. `npu_vsprintf` reads the bytes they render to;
    beside it stands what C prints. The arguments are 32-bit words, a
    64-bit value taking the low word first; a string argument stands for
    the bytes up to its NUL. -/

namespace ClankerNPU.Console

/-! ## Formats -/

inductive Flag where
  | minus
  | zero
  deriving DecidableEq

inductive IntConv where
  | d
  | u
  | x
  | upperX
  deriving DecidableEq

inductive LenMod where
  | none
  | l
  | ll
  deriving DecidableEq

/-- A width that fits an `int`; 0 is no width. -/
abbrev Width := {w : ℕ // w < 2 ^ 31}

/-- A byte that stands for itself -/
abbrev Literal := {b : Byte // b ≠ ch '%' ∧ b ≠ 0}

inductive Piece where
  | lit (b : Literal)
  | percent
  | int (flags : List Flag) (width : Width) (mod : LenMod) (conv : IntConv)
  | str (minus : Bool) (width : Width)
  | chr (minus : Bool) (width : Width)
  | ptr (minus : Bool) (width : Width)

def Flag.byte : Flag → Byte
  | minus => ch '-'
  | zero => ch '0'

def IntConv.byte : IntConv → Byte
  | d => ch 'd'
  | u => ch 'u'
  | x => ch 'x'
  | upperX => ch 'X'

def LenMod.bytes : LenMod → List Byte
  | none => []
  | l => [ch 'l']
  | ll => [ch 'l', ch 'l']

def Width.bytes (w : Width) : List Byte := if w.1 = 0 then [] else (Nat.toDigits 10 w.1).map ch

/-- The flag a left alignment needs. -/
def alignment (minus : Bool) : List Flag := if minus then [.minus] else []

/-- A directive behind its '%' -/
def directiveBytes (flags : List Flag) (width : Width) (mod : LenMod) (conv : Byte) : List Byte :=
  flags.map Flag.byte ++ (width.bytes ++ (mod.bytes ++ [conv]))

def Piece.bytes : Piece → List Byte
  | lit b => [b.1]
  | percent => [ch '%', ch '%']
  | int flags width mod conv => ch '%' :: directiveBytes flags width mod conv.byte
  | str minus width => ch '%' :: directiveBytes (alignment minus) width .none (ch 's')
  | chr minus width => ch '%' :: directiveBytes (alignment minus) width .none (ch 'c')
  | ptr minus width => ch '%' :: directiveBytes (alignment minus) width .none (ch 'p')

/-- The format string -/
def render (ps : List Piece) : List Byte := ps.flatMap Piece.bytes

/-! ## What C prints -/

def blanks (n : ℕ) : List Byte := List.replicate n (ch ' ')

/-- A text in its field -/
def cField (minus : Bool) (width : ℕ) (text : List Byte) : List Byte :=
  if minus then text ++ blanks (width - text.length) else blanks (width - text.length) ++ text

/-- A number in its field: '0' is ignored beside '-', and its zeros stand
    between the sign and the digits. -/
def cNumber (flags : List Flag) (width : ℕ) (sign digits : List Byte) : List Byte :=
  if .minus ∈ flags then cField true width (sign ++ digits)
  else if .zero ∈ flags then
    sign ++ (List.replicate (width - (sign ++ digits).length) (ch '0') ++ digits)
  else cField false width (sign ++ digits)

/-- A numeral in base `b` -/
def numeral (b n : ℕ) : List Byte := (Nat.toDigits b n).map ch

def upperNumeral (b n : ℕ) : List Byte := (Nat.toDigits b n).map fun c => ch c.toUpper

/-- The sign and the digits of a value -/
def cDigits {w : ℕ} (v : BitVec w) : IntConv → List Byte × List Byte
  | .d => (if v.toInt < 0 then [ch '-'] else [], numeral 10 v.toInt.natAbs)
  | .u => ([], numeral 10 v.toNat)
  | .x => ([], numeral 16 v.toNat)
  | .upperX => ([], upperNumeral 16 v.toNat)

/-- 0x and eight hex digits -/
def cPointer (v : BitVec 32) : List Byte :=
  [ch '0', ch 'x'] ++ (List.replicate (8 - (numeral 16 v.toNat).length) (ch '0') ++
    numeral 16 v.toNat)

def nullText : List Byte := text "(null)"

/-- The words a piece takes -/
def Piece.takes : Piece → ℕ
  | lit _ => 0
  | percent => 0
  | int _ _ mod _ => if mod = .ll then 2 else 1
  | str _ _ => 1
  | chr _ _ => 1
  | ptr _ _ => 1

/-- What C prints for a piece whose first word is `args i`. A null string,
    which C leaves open, is printed as `nullText`. -/
def Piece.cText (args : ℕ → BitVec 32) (strs : BitVec 32 → List Byte) (i : ℕ) :
    Piece → List Byte
  | lit b => [b.1]
  | percent => [ch '%']
  | int flags width mod conv =>
    let p := if mod = .ll then cDigits (args (i + 1) ++ args i) conv else cDigits (args i) conv
    cNumber flags width.1 p.1 p.2
  | str minus width => cField minus width.1 (if args i = 0 then nullText else strs (args i))
  | chr minus width => cField minus width.1 [(args i).setWidth 8]
  | ptr minus width => cField minus width.1 (cPointer (args i))

def cVsprintf (args : ℕ → BitVec 32) (strs : BitVec 32 → List Byte) : List Piece → ℕ → List Byte
  | [], _ => []
  | p :: ps, i => p.cText args strs i ++ cVsprintf args strs ps (i + p.takes)

/-! ## `npu_vsprintf` -/

/-- `if (*f == c) f++`, and whether it was -/
def skipIf (c : Byte) : List Byte → Bool × List Byte
  | [] => (false, [])
  | b :: f => if b = c then (true, f) else (false, b :: f)

/-- `while (*f >= '0' && *f <= '9') width = width * 10 + (*f++ - '0')` -/
def takeWidth (width : ℕ) : List Byte → ℕ × List Byte
  | [] => (width, [])
  | b :: f =>
    if 48 ≤ b.toNat ∧ b.toNat ≤ 57 then takeWidth (width * 10 + (b.toNat - 48)) f
    else (width, b :: f)

/-- The modifiers, and whether they are "ll" -/
def takeMod (f : List Byte) : Bool × List Byte :=
  if (skipIf (ch 'l') f).1 then skipIf (ch 'l') (skipIf (ch 'l') f).2
  else (false, (skipIf (ch 'z') f).2)

/-- What a directive sets -/
structure Spec where
  left : Bool
  padZero : Bool
  width : ℕ
  isLl : Bool

/-- A directive up to its conversion. -/
def directive (f : List Byte) : Spec × List Byte :=
  let left := skipIf (ch '-') f
  let padZero := skipIf (ch '0') left.2
  let width := takeWidth 0 padZero.2
  let mod := takeMod width.2
  (⟨left.1, padZero.1, width.1, mod.1⟩, mod.2)

/-- `do tmp[len++] = …; while (v)`: the digits backwards -/
def tmpDigits (b : ℕ) (digit : ℕ → Byte) (v : ℕ) : List Byte :=
  if 1 < b ∧ v / b ≠ 0 then digit (v % b) :: tmpDigits b digit (v / b) else [digit (v % b)]
termination_by v
decreasing_by exact Nat.div_lt_self (Nat.pos_of_ne_zero fun h => by simp [h] at *) (by omega)

/-- `'0' + d` -/
def decDigit (d : ℕ) : Byte := BitVec.ofNat 8 (48 + d)

/-- `hex[d]` -/
def hexTable (upper : Bool) (d : ℕ) : Byte :=
  if upper then (text "0123456789ABCDEF").getD d 0 else (text "0123456789abcdef").getD d 0

/-- `tmp` of a signed value -/
def signedTmp {w : ℕ} (v : BitVec w) : List Byte :=
  if v.toInt < 0 then tmpDigits 10 decDigit (0 - v).toNat ++ [ch '-']
  else tmpDigits 10 decDigit v.toNat

/-- `for (i = 0; i < n; i++) *p++ = c` -/
def fill (n : ℤ) (c : Byte) : List Byte := List.replicate n.toNat c

/-- The padding around `tmp`, which is copied backwards -/
def emitTmp (s : Spec) (width : ℤ) (tmp : List Byte) : List Byte :=
  (if s.left then [] else fill (width - tmp.length) (if s.padZero then ch '0' else ch ' ')) ++
    (tmp.reverse ++ if s.left then fill (width - tmp.length) (ch ' ') else [])

/-- Zero padding goes between the sign and the digits. -/
def emitSigned (s : Spec) (tmp : List Byte) : List Byte :=
  if s.padZero ∧ s.left = false ∧ tmp.getLast? = some (ch '-') then
    ch '-' :: emitTmp s (s.width - 1) tmp.dropLast
  else emitTmp s s.width tmp

/-- `args[arg_idx] | ((u64)args[arg_idx + 1] << 32)` -/
def arg64 (args : ℕ → BitVec 32) (i : ℕ) : BitVec 64 :=
  (args i).setWidth 64 ||| (args (i + 1)).setWidth 64 <<< 32

/-- The conversion `c`: what it prints, and `arg_idx` after it -/
def convert (args : ℕ → BitVec 32) (strs : BitVec 32 → List Byte) (i : ℕ) (s : Spec) (c : Byte) :
    List Byte × ℕ :=
  if c = ch 'd' then
    if s.isLl then (emitSigned s (signedTmp (arg64 args i)), i + 2)
    else (emitSigned s (signedTmp (args i)), i + 1)
  else if c = ch 'u' then
    if s.isLl then (emitTmp s s.width (tmpDigits 10 decDigit (arg64 args i).toNat), i + 2)
    else (emitTmp s s.width (tmpDigits 10 decDigit (args i).toNat), i + 1)
  else if c = ch 'x' ∨ c = ch 'X' then
    let digit := hexTable (c = ch 'X')
    if s.isLl then (emitTmp s s.width (tmpDigits 16 digit (arg64 args i).toNat), i + 2)
    else (emitTmp s s.width (tmpDigits 16 digit (args i).toNat), i + 1)
  else if c = ch 's' then
    let str := if args i = 0 then nullText else strs (args i)
    ((if s.left then [] else fill (s.width - str.length) (ch ' ')) ++
      (str ++ if s.left then fill (s.width - str.length) (ch ' ') else []), i + 1)
  else if c = ch 'c' then ([(args i).setWidth 8], i + 1)
  else if c = ch 'p' then
    ([ch '0', ch 'x'] ++ (List.range 8).map fun k =>
      hexTable false ((args i >>> (4 * (7 - k))) &&& 0xF).toNat, i + 1)
  else if c = ch '%' then ([ch '%'], i)
  else ([ch '%', c], i)

theorem skipIf_length (c : Byte) (f : List Byte) : (skipIf c f).2.length ≤ f.length := by
  cases f with
  | nil => exact le_rfl
  | cons b f =>
    rw [skipIf]
    split_ifs
    · exact Nat.le_succ _
    · exact le_rfl

theorem takeWidth_length (width : ℕ) (f : List Byte) : (takeWidth width f).2.length ≤ f.length := by
  induction f generalizing width with
  | nil => exact le_rfl
  | cons b f ih =>
    unfold takeWidth
    split_ifs
    · exact (ih _).trans (Nat.le_succ _)
    · exact le_rfl

theorem directive_length (f : List Byte) : (directive f).2.length ≤ f.length := by
  have hmod : ∀ f, (takeMod f).2.length ≤ f.length := by
    intro f
    unfold takeMod
    split_ifs
    · exact (skipIf_length _ _).trans (skipIf_length _ _)
    · exact skipIf_length _ _
  exact (hmod _).trans ((takeWidth_length _ _).trans ((skipIf_length _ _).trans (skipIf_length _ _)))

/-- `npu_vsprintf`, from the format's byte `f` and `arg_idx` `i` on. A
    format that ends within a directive is read past its end; what
    follows is not modelled. -/
def npuVsprintf (args : ℕ → BitVec 32) (strs : BitVec 32 → List Byte) (f : List Byte) (i : ℕ) :
    List Byte :=
  match f with
  | [] => []
  | c :: f =>
    if c ≠ ch '%' then c :: npuVsprintf args strs f i
    else
      let r := convert args strs i (directive f).1 ((directive f).2.headD 0)
      r.1 ++ npuVsprintf args strs (directive f).2.tail r.2
termination_by f.length
decreasing_by
  · exact Nat.lt_succ_self _
  · rw [List.length_tail, List.length_cons]
    have := directive_length f
    omega

/-! ## Digits -/

variable {args : ℕ → BitVec 32} {strs : BitVec 32 → List Byte} {f : List Byte} {i j n v : ℕ}

/-- The digits backwards are the numeral backwards. -/
theorem tmpDigits_eq {b : ℕ} {digit : ℕ → Byte} {glyph : Char → Byte} (hb : 1 < b)
    (h : ∀ d < b, digit d = glyph d.digitChar) (v : ℕ) :
    tmpDigits b digit v = ((Nat.toDigits b v).map glyph).reverse := by
  induction v using Nat.strong_induction_on with
  | _ v ih =>
    have hmod := h (v % b) (Nat.mod_lt _ (by omega))
    rw [tmpDigits]
    by_cases hlt : v < b
    · rw [Nat.div_eq_of_lt hlt, if_neg (by simp), Nat.toDigits_of_lt_base hlt, hmod,
        Nat.mod_eq_of_lt hlt]
      rfl
    · have hdiv : v / b ≠ 0 := (Nat.div_pos (not_lt.mp hlt) (by omega)).ne'
      rw [if_pos ⟨hb, hdiv⟩, Nat.toDigits_of_base_le hb (not_lt.mp hlt), List.map_append,
        List.reverse_append, hmod, ih _ (Nat.div_lt_self (by omega) hb)]
      rfl

theorem decDigit_eq : ∀ d < 10, decDigit d = ch d.digitChar := by decide

theorem hexTable_lower : ∀ d < 16, hexTable false d = ch d.digitChar := by decide

theorem hexTable_upper : ∀ d < 16, hexTable true d = ch d.digitChar.toUpper := by decide

/-- Every character of a numeral is a digit. -/
theorem digit_of_mem_toDigits {b : ℕ} (hb : 1 < b) {c : Char} (h : c ∈ Nat.toDigits b v) :
    ∃ d < b, c = d.digitChar := by
  induction v using Nat.strong_induction_on with
  | _ v ih =>
    by_cases hlt : v < b
    · rw [Nat.toDigits_of_lt_base hlt] at h
      exact ⟨v, hlt, List.mem_singleton.mp h⟩
    · rw [Nat.toDigits_of_base_le hb (not_lt.mp hlt)] at h
      rcases List.mem_append.mp h with h | h
      · exact ih _ (Nat.div_lt_self (by omega) hb) h
      · exact ⟨v % b, Nat.mod_lt _ (by omega), List.mem_singleton.mp h⟩

theorem digitChar_ne_zero : ∀ d < 10, 0 < d → d.digitChar ≠ '0' := by decide

/-- The numeral of a positive number does not begin with 0. -/
theorem head_toDigits (hv : 0 < v) : (Nat.toDigits 10 v).head? ≠ some '0' := by
  induction v using Nat.strong_induction_on with
  | _ v ih =>
    by_cases hlt : v < 10
    · rw [Nat.toDigits_of_lt_base hlt, List.head?_cons]
      exact fun h => digitChar_ne_zero v hlt hv (Option.some.inj h)
    · have hdiv := ih _ (Nat.div_lt_self (by omega) (by decide))
        (Nat.div_pos (not_lt.mp hlt) (by decide))
      obtain ⟨c, cs, hcs⟩ := List.exists_cons_of_ne_nil (Nat.toDigits_ne_nil (n := v / 10) (b := 10))
      rw [hcs] at hdiv
      rw [Nat.toDigits_of_base_le (by decide) (not_lt.mp hlt), hcs]
      exact hdiv

/-- The magnitude of a negative value, as the code takes it -/
theorem toNat_zero_sub {w : ℕ} {x : BitVec w} (h : x.toInt < 0) : (0 - x).toNat = x.toInt.natAbs := by
  have hlt := x.isLt
  rw [BitVec.toInt_eq_toNat_cond] at h ⊢
  split_ifs at h ⊢ with hsmall
  · omega
  · show (0#w - x).toNat = _
    rw [BitVec.zero_sub, BitVec.toNat_neg, Nat.mod_eq_of_lt (by omega)]
    omega

theorem toNat_eq_natAbs {w : ℕ} {x : BitVec w} (h : ¬x.toInt < 0) : x.toNat = x.toInt.natAbs := by
  have hlt := x.isLt
  rw [BitVec.toInt_eq_toNat_cond] at h ⊢
  split_ifs at h ⊢ <;> omega

/-- A 64-bit value is its high word above its low one. -/
theorem arg64_eq (args : ℕ → BitVec 32) (i : ℕ) : arg64 args i = args (i + 1) ++ args i := by
  apply BitVec.eq_of_toNat_eq
  have hlo := (args i).isLt
  have hhi := (args (i + 1)).isLt
  unfold arg64
  rw [BitVec.toNat_or, BitVec.toNat_append, BitVec.toNat_shiftLeft, BitVec.toNat_setWidth,
    BitVec.toNat_setWidth, Nat.mod_eq_of_lt (by omega), Nat.mod_eq_of_lt (a := (args (i + 1)).toNat)
    (by omega), Nat.or_comm, Nat.shiftLeft_eq, Nat.mod_eq_of_lt (by omega)]

/-- The sign and the digits of a signed value, backwards -/
theorem signedTmp_eq {w : ℕ} (x : BitVec w) :
    signedTmp x = ((cDigits x .d).1 ++ (cDigits x .d).2).reverse := by
  unfold signedTmp cDigits
  dsimp only
  by_cases h : x.toInt < 0
  · rw [if_pos h, if_pos h, tmpDigits_eq (by decide) decDigit_eq, toNat_zero_sub h,
      List.reverse_append]
    rfl
  · rw [if_neg h, if_neg h, tmpDigits_eq (by decide) decDigit_eq, toNat_eq_natAbs h]
    rfl

theorem glyph_ne : ∀ d < 16, ∀ c ∈ [ch '-', ch '%'],
    ch d.digitChar ≠ c ∧ ch d.digitChar.toUpper ≠ c := by decide

/-- No digit is a sign or a '%'. -/
theorem cDigits_ne {w : ℕ} {x : BitVec w} {k : IntConv} {c b : Byte} (hc : c ∈ [ch '-', ch '%'])
    (h : b ∈ (cDigits x k).2) : b ≠ c := by
  unfold cDigits at h
  cases k
  case d =>
    obtain ⟨a, ha, rfl⟩ := List.mem_map.mp h
    obtain ⟨d, hd, rfl⟩ := digit_of_mem_toDigits (by decide) ha
    exact (glyph_ne d (by omega) c hc).1
  case u =>
    obtain ⟨a, ha, rfl⟩ := List.mem_map.mp h
    obtain ⟨d, hd, rfl⟩ := digit_of_mem_toDigits (by decide) ha
    exact (glyph_ne d (by omega) c hc).1
  case x =>
    obtain ⟨a, ha, rfl⟩ := List.mem_map.mp h
    obtain ⟨d, hd, rfl⟩ := digit_of_mem_toDigits (by decide) ha
    exact (glyph_ne d hd c hc).1
  case upperX =>
    obtain ⟨a, ha, rfl⟩ := List.mem_map.mp h
    obtain ⟨d, hd, rfl⟩ := digit_of_mem_toDigits (by decide) ha
    exact (glyph_ne d hd c hc).2

theorem cDigits_ne_nil {w : ℕ} (x : BitVec w) (k : IntConv) : (cDigits x k).2 ≠ [] := by
  cases k <;> exact fun h => Nat.toDigits_ne_nil (List.map_eq_nil_iff.mp h)

/-- The digits of an unsigned value, backwards -/
theorem unsignedTmp_eq {w : ℕ} (x : BitVec w) :
    tmpDigits 10 decDigit x.toNat = ((cDigits x .u).2).reverse ∧
      tmpDigits 16 (hexTable false) x.toNat = ((cDigits x .x).2).reverse ∧
      tmpDigits 16 (hexTable true) x.toNat = ((cDigits x .upperX).2).reverse :=
  ⟨tmpDigits_eq (by decide) decDigit_eq _, tmpDigits_eq (by decide) hexTable_lower _,
    @tmpDigits_eq 16 (hexTable true) (fun c => ch c.toUpper) (by decide) hexTable_upper _⟩

/-! ## Fields -/

theorem fill_eq (w n : ℕ) (c : Byte) : fill ((w : ℤ) - n) c = List.replicate (w - n) c := by
  unfold fill
  rw [Int.toNat_sub]

/-- The padding around a number is C's. -/
theorem emitTmp_eq {s : Spec} {flags : List Flag} (hleft : s.left = decide (Flag.minus ∈ flags))
    (hzero : s.padZero = decide (Flag.zero ∈ flags)) (digits : List Byte) :
    emitTmp s s.width digits.reverse = cNumber flags s.width [] digits := by
  unfold emitTmp cNumber cField blanks
  rw [List.length_reverse, List.reverse_reverse, fill_eq, fill_eq, hleft, hzero]
  by_cases hm : Flag.minus ∈ flags
  · simp [hm]
  · by_cases hz : Flag.zero ∈ flags <;> simp [hm, hz]

/-- Where no zeros go between them, the sign is one more digit. -/
theorem cNumber_sign {flags : List Flag} (h : Flag.minus ∈ flags ∨ Flag.zero ∉ flags) (w : ℕ)
    (sign digits : List Byte) : cNumber flags w [] (sign ++ digits) = cNumber flags w sign digits := by
  unfold cNumber
  rw [List.nil_append]
  rcases h with hm | hz
  · rw [if_pos hm, if_pos hm]
  · rw [if_neg hz, if_neg hz]

/-- The padding around a signed number is C's. -/
theorem emitSigned_eq {s : Spec} {flags : List Flag} (hleft : s.left = decide (Flag.minus ∈ flags))
    (hzero : s.padZero = decide (Flag.zero ∈ flags)) {w : ℕ} (x : BitVec w) :
    emitSigned s (signedTmp x) = cNumber flags s.width (cDigits x .d).1 (cDigits x .d).2 := by
  have hsign : (cDigits x .d).1 = if x.toInt < 0 then [ch '-'] else [] := rfl
  obtain ⟨b, ds, hds⟩ := List.exists_cons_of_ne_nil (cDigits_ne_nil x .d)
  have hb : b ≠ ch '-' := cDigits_ne (by decide) (hds ▸ List.mem_cons_self)
  unfold emitSigned
  rw [signedTmp_eq, hsign, hds]
  by_cases hneg : x.toInt < 0
  · rw [if_pos hneg]
    by_cases hform : Flag.minus ∈ flags ∨ Flag.zero ∉ flags
    · rw [if_neg, emitTmp_eq hleft hzero, cNumber_sign hform]
      rintro ⟨hpad, hright, -⟩
      rcases hform with hm | hz
      · simp [hm, hright] at hleft
      · simp [hz, hpad] at hzero
    · -- the sign goes first, and the zeros after it
      obtain ⟨hm, hz⟩ := not_or.mp hform
      have hz := not_not.mp hz
      have hright : s.left = false := by simp [hleft, hm]
      have hpad : s.padZero = true := by simp [hzero, hz]
      have hlen : (s.width : ℤ) - 1 - (b :: ds).length = s.width - ((b :: ds).length + 1 : ℕ) := by
        push_cast
        omega
      rw [List.singleton_append, List.reverse_cons, List.getLast?_concat, List.dropLast_concat,
        if_pos ⟨hpad, hright, rfl⟩, emitTmp, List.length_reverse, List.reverse_reverse, hlen, fill_eq,
        cNumber, if_neg hm, if_pos hz, hright, hpad]
      simp
  · -- no sign to pull in front
    rw [if_neg hneg, List.nil_append, if_neg, emitTmp_eq hleft hzero]
    rw [List.getLast?_reverse, List.head?_cons]
    exact fun h => hb (Option.some.inj h.2.2)

/-- A text in its field -/
theorem field_eq (s : Spec) (str : List Byte) :
    (if s.left then [] else fill (s.width - str.length) (ch ' ')) ++
      (str ++ if s.left then fill (s.width - str.length) (ch ' ') else [])
      = cField s.left s.width str := by
  unfold cField blanks
  rw [fill_eq]
  cases s.left <;> simp

/-! ## Directives -/

theorem takeWidth_digits {ds : List Byte} (h : ∀ c ∈ ds, 48 ≤ c.toNat ∧ c.toNat ≤ 57) (w : ℕ)
    (hf : ∀ c ∈ f.head?, ¬(48 ≤ c.toNat ∧ c.toNat ≤ 57)) :
    takeWidth w (ds ++ f) = (ds.foldl (fun w c => w * 10 + (c.toNat - 48)) w, f) := by
  induction ds generalizing w with
  | nil =>
    cases f with
    | nil => rfl
    | cons c f => exact if_neg (hf c rfl)
  | cons c ds ih =>
    obtain ⟨hc, hds⟩ := List.forall_mem_cons.mp h
    rw [List.cons_append, takeWidth, if_pos hc, ih hds]
    rfl

theorem isDigit_toNat {c : Char} (h : c.isDigit) : 48 ≤ c.toNat ∧ c.toNat ≤ 57 := by
  rw [Char.isDigit_iff_toNat] at h
  exact h

theorem ch_toNat {c : Char} (h : c.isDigit) : (ch c).toNat = c.toNat := by
  have := isDigit_toNat h
  rw [ch, BitVec.toNat_ofNat]
  omega

/-- The value of a width's digits is the width. -/
theorem foldl_width (w : Width) :
    w.bytes.foldl (fun w c => w * 10 + (c.toNat - 48)) 0 = w.1 := by
  unfold Width.bytes
  split_ifs with h0
  · exact h0.symm
  · have hch : ∀ (l : List Char) (n : ℕ), (∀ c ∈ l, c.isDigit) →
        l.foldl (fun w c => w * 10 + ((ch c).toNat - 48)) n = Nat.ofDigitChars 10 l n := by
      intro l
      induction l with
      | nil => exact fun _ _ => rfl
      | cons c l ih =>
        intro n hl
        obtain ⟨hc, hl⟩ := List.forall_mem_cons.mp hl
        rw [List.foldl_cons, ih _ hl, ch_toNat hc, Nat.ofDigitChars_cons, Nat.mul_comm]
        rfl
    rw [List.foldl_map, hch _ _ fun c hc => Nat.isDigit_of_mem_toDigits (by decide) (by decide) hc,
      Nat.ofDigitChars_ten_toDigits]

theorem width_digits (w : Width) : ∀ c ∈ w.bytes, 48 ≤ c.toNat ∧ c.toNat ≤ 57 := by
  intro c hc
  unfold Width.bytes at hc
  split_ifs at hc
  · exact absurd hc List.not_mem_nil
  · obtain ⟨a, ha, rfl⟩ := List.mem_map.mp hc
    have hdigit := Nat.isDigit_of_mem_toDigits (by decide) (by decide) ha
    rw [ch_toNat hdigit]
    exact isDigit_toNat hdigit

/-- A byte that ends the flags, the width and the modifier -/
structure Ends (c : Byte) : Prop where
  digit : ¬(48 ≤ c.toNat ∧ c.toNat ≤ 57)
  l : c ≠ ch 'l'
  z : c ≠ ch 'z'

instance (c : Byte) : Decidable (Ends c) :=
  decidable_of_iff (¬(48 ≤ c.toNat ∧ c.toNat ≤ 57) ∧ c ≠ ch 'l' ∧ c ≠ ch 'z')
    ⟨fun h => ⟨h.1, h.2.1, h.2.2⟩, fun h => ⟨h.digit, h.l, h.z⟩⟩

theorem skipIf_self (c : Byte) (f : List Byte) : skipIf c (c :: f) = (true, f) := if_pos rfl

theorem skipIf_of_ne {c b : Byte} (h : b ≠ c) (f : List Byte) : skipIf c (b :: f) = (false, b :: f) :=
  if_neg h

theorem takeMod_bytes (mod : LenMod) {c : Byte} (hc : Ends c) (f : List Byte) :
    takeMod (mod.bytes ++ c :: f) = (decide (mod = .ll), c :: f) := by
  unfold takeMod
  cases mod with
  | none => simp [LenMod.bytes, skipIf_of_ne hc.l, skipIf_of_ne hc.z]
  | l => simp [LenMod.bytes, skipIf_self, skipIf_of_ne hc.l]
  | ll => simp [LenMod.bytes, skipIf_self]

/-- The flags '-' and then '0' in this order -/
def orderedFlags (minus : Bool) (zeros : ℕ) : List Flag :=
  alignment minus ++ List.replicate zeros .zero

theorem head_bytes (w : Width) (mod : LenMod) {c : Byte} (hc : Ends c) (f : List Byte) :
    ∃ b more, w.bytes ++ (mod.bytes ++ c :: f) = b :: more ∧
      (c ≠ ch '-' → b ≠ ch '-') ∧ b ≠ ch '0' := by
  by_cases h0 : w.1 = 0
  · rw [Width.bytes, if_pos h0, List.nil_append]
    cases mod with
    | none =>
      refine ⟨c, f, rfl, id, ?_⟩
      rintro rfl
      exact hc.digit (by decide)
    | l => exact ⟨ch 'l', c :: f, rfl, fun _ => by decide, by decide⟩
    | ll => exact ⟨ch 'l', ch 'l' :: c :: f, rfl, fun _ => by decide, by decide⟩
  · obtain ⟨a, as, has⟩ := List.exists_cons_of_ne_nil (Nat.toDigits_ne_nil (n := w.1) (b := 10))
    have hdigit : a.isDigit := Nat.isDigit_of_mem_toDigits (b := 10) (n := w.1) (by decide)
      (by decide) (has ▸ List.mem_cons_self)
    have hhead := head_toDigits (Nat.pos_of_ne_zero h0)
    rw [has] at hhead
    rw [Width.bytes, if_neg h0, has]
    refine ⟨ch a, as.map ch ++ (mod.bytes ++ c :: f), rfl, ?_, ?_⟩
    · intro _ hdash
      have hval := congrArg BitVec.toNat hdash
      rw [ch_toNat hdigit] at hval
      have := isDigit_toNat hdigit
      have hminus : (ch '-').toNat = 45 := by decide
      omega
    · intro hzero
      have hval := congrArg BitVec.toNat hzero
      rw [ch_toNat hdigit] at hval
      exact hhead (congrArg some (Char.toNat_inj.mp hval))

theorem skip_dash {minus : Bool} {zeros : ℕ} {c b : Byte} {more : List Byte}
    (hb : c ≠ ch '-' → b ≠ ch '-') (hdash : c ≠ ch '-' ∨ minus = true ∨ 0 < zeros) :
    skipIf (ch '-') ((alignment minus).map Flag.byte ++ (List.replicate zeros (ch '0') ++ b :: more))
      = (minus, List.replicate zeros (ch '0') ++ b :: more) := by
  cases minus with
  | true => exact skipIf_self _ _
  | false =>
    cases zeros with
    | zero => exact skipIf_of_ne (hb (by simpa using hdash)) _
    | succ zeros => exact skipIf_of_ne (by decide) _

theorem skip_zero {zeros : ℕ} {b : Byte} {more : List Byte} (hb : b ≠ ch '0') :
    skipIf (ch '0') (List.replicate zeros (ch '0') ++ b :: more)
      = (decide (0 < zeros), List.replicate (zeros - 1) (ch '0') ++ b :: more) := by
  cases zeros with
  | zero => exact skipIf_of_ne hb _
  | succ zeros => exact skipIf_self _ _

/-- More zeros are digits of the width. -/
theorem take_width (zeros : ℕ) (w : Width) (mod : LenMod) {c : Byte} (hc : Ends c) (f : List Byte) :
    takeWidth 0 (List.replicate zeros (ch '0') ++ (w.bytes ++ (mod.bytes ++ c :: f)))
      = (w.1, mod.bytes ++ c :: f) := by
  have hzeros : ∀ n, (List.replicate n (ch '0')).foldl
      (fun w c => w * 10 + (c.toNat - 48)) 0 = 0 := by
    intro n
    induction n with
    | zero => rfl
    | succ n ih => exact ih
  have hdigits : ∀ b ∈ List.replicate zeros (ch '0') ++ w.bytes, 48 ≤ b.toNat ∧ b.toNat ≤ 57 := by
    intro b hb
    rcases List.mem_append.mp hb with hb | hb
    · rw [List.eq_of_mem_replicate hb]
      decide
    · exact width_digits w b hb
  rw [← List.append_assoc, takeWidth_digits hdigits, List.foldl_append, hzeros, foldl_width]
  intro b hb
  cases mod with
  | none =>
    obtain rfl := Option.some.inj hb
    exact hc.digit
  | l =>
    obtain rfl := Option.some.inj hb
    decide
  | ll =>
    obtain rfl := Option.some.inj hb
    decide

/-- A directive with its flags in order is read as C reads it; a '-'
    behind them is taken for the conversion. -/
theorem directive_ordered {minus : Bool} {zeros : ℕ} (w : Width) (mod : LenMod) {c : Byte}
    (hc : Ends c) (hdash : c ≠ ch '-' ∨ minus = true ∨ 0 < zeros) (f : List Byte) :
    directive (directiveBytes (orderedFlags minus zeros) w mod c ++ f)
      = (⟨minus, decide (0 < zeros), w.1, decide (mod = .ll)⟩, c :: f) := by
  obtain ⟨b, more, htail, hb, hb0⟩ := head_bytes w mod hc f
  have hbytes : directiveBytes (orderedFlags minus zeros) w mod c ++ f
      = (alignment minus).map Flag.byte ++ (List.replicate zeros (ch '0') ++ b :: more) := by
    rw [← htail, directiveBytes, orderedFlags, List.map_append, List.map_replicate]
    simp only [List.append_assoc, List.singleton_append]
    rfl
  unfold directive
  rw [hbytes, skip_dash hb hdash]
  dsimp only
  rw [skip_zero hb0]
  dsimp only
  rw [← htail, take_width _ w mod hc]
  dsimp only
  rw [takeMod_bytes mod hc]

theorem minus_mem_orderedFlags (m : Bool) (z : ℕ) :
    decide (Flag.minus ∈ orderedFlags m z) = m := by
  cases m <;> simp [orderedFlags, alignment]

theorem zero_mem_orderedFlags (m : Bool) (z : ℕ) :
    decide (Flag.zero ∈ orderedFlags m z) = decide (0 < z) := by
  cases m <;> simp [orderedFlags, alignment, Nat.pos_iff_ne_zero]

/-- Flags with no '-' but the first are in order. -/
theorem orderedFlags_of_notMem {flags : List Flag} (h : Flag.minus ∉ flags.tail) :
    ∃ m z, flags = orderedFlags m z := by
  have hzeros : ∀ l : List Flag, Flag.minus ∉ l → l = List.replicate l.length .zero := by
    intro l hl
    refine List.eq_replicate_of_mem fun a ha => ?_
    cases a with
    | minus => exact absurd ha hl
    | zero => rfl
  cases flags with
  | nil => exact ⟨false, 0, rfl⟩
  | cons a l =>
    have hl := hzeros l h
    cases a with
    | minus => exact ⟨true, l.length, congrArg (Flag.minus :: ·) hl⟩
    | zero => exact ⟨false, l.length + 1, congrArg (Flag.zero :: ·) hl⟩

/-- Other flags are in order up to a '-'. -/
theorem orderedFlags_of_mem {flags : List Flag} (h : Flag.minus ∈ flags.tail) :
    ∃ m z rest, flags = orderedFlags m z ++ .minus :: rest ∧ (m = true ∨ 0 < z) := by
  have hzeros : ∀ l : List Flag, Flag.minus ∈ l →
      ∃ z rest, l = List.replicate z .zero ++ .minus :: rest := by
    intro l
    induction l with
    | nil => exact fun h => absurd h List.not_mem_nil
    | cons a l ih =>
      intro hl
      cases a with
      | minus => exact ⟨0, l, rfl⟩
      | zero =>
        obtain ⟨z, rest, hrest⟩ := ih (by simpa using hl)
        exact ⟨z + 1, rest, congrArg (Flag.zero :: ·) hrest⟩
  cases flags with
  | nil => exact absurd h List.not_mem_nil
  | cons a l =>
    obtain ⟨z, rest, hrest⟩ := hzeros l h
    cases a with
    | minus => exact ⟨true, z, rest, congrArg (Flag.minus :: ·) hrest, .inl rfl⟩
    | zero => exact ⟨false, z + 1, rest, congrArg (Flag.zero :: ·) hrest, .inr (Nat.succ_pos z)⟩

/-! ## Pieces -/

/-- The formatter prints the piece as C does: a '-' comes first among the
    flags, and no field is wider than a character or a pointer. -/
def Piece.Plain : Piece → Prop
  | lit _ => True
  | percent => True
  | int flags _ _ _ => Flag.minus ∉ flags.tail
  | str _ _ => True
  | chr _ width => width.1 ≤ 1
  | ptr _ width => width.1 ≤ 10

theorem npuVsprintf_directive (args : ℕ → BitVec 32) (strs : BitVec 32 → List Byte) {c : Byte}
    (hc : Ends c) {m : Bool} {z : ℕ} (w : Width) (mod : LenMod)
    (hdash : c ≠ ch '-' ∨ m = true ∨ 0 < z) (f : List Byte) (i : ℕ) :
    npuVsprintf args strs (ch '%' :: directiveBytes (orderedFlags m z) w mod c ++ f) i =
      (convert args strs i ⟨m, decide (0 < z), w.1, decide (mod = .ll)⟩ c).1 ++
        npuVsprintf args strs f
          (convert args strs i ⟨m, decide (0 < z), w.1, decide (mod = .ll)⟩ c).2 := by
  rw [List.cons_append, npuVsprintf, if_neg (by simp), directive_ordered w mod hc hdash]
  rfl

/-- What the conversion of a number prints, whatever the width of the
    value -/
def printed {n : ℕ} (s : Spec) (x : BitVec n) : IntConv → List Byte
  | .d => emitSigned s (signedTmp x)
  | .u => emitTmp s s.width (tmpDigits 10 decDigit x.toNat)
  | .x => emitTmp s s.width (tmpDigits 16 (hexTable false) x.toNat)
  | .upperX => emitTmp s s.width (tmpDigits 16 (hexTable true) x.toNat)

theorem convert_byte (s : Spec) (conv : IntConv) (i : ℕ) :
    convert args strs i s conv.byte =
      if s.isLl then (printed s (arg64 args i) conv, i + 2) else (printed s (args i) conv, i + 1) := by
  have hud : ¬ch 'u' = ch 'd' := by decide
  have hxd : ¬ch 'x' = ch 'd' := by decide
  have hxu : ¬ch 'x' = ch 'u' := by decide
  have hxX : ¬ch 'x' = ch 'X' := by decide
  have hXd : ¬ch 'X' = ch 'd' := by decide
  have hXu : ¬ch 'X' = ch 'u' := by decide
  unfold convert
  cases conv with
  | d => exact if_pos rfl
  | u => exact (if_neg hud).trans (if_pos rfl)
  | x =>
    simp only [IntConv.byte, hxd, hxu, hxX, or_false, if_false, if_true, decide_false]
    rfl
  | upperX =>
    simp only [IntConv.byte, hXd, hXu, or_true, if_false, if_true, decide_true]
    rfl

theorem printed_eq {s : Spec} {flags : List Flag} (hleft : s.left = decide (Flag.minus ∈ flags))
    (hzero : s.padZero = decide (Flag.zero ∈ flags)) {n : ℕ} (x : BitVec n) (conv : IntConv) :
    printed s x conv = cNumber flags s.width (cDigits x conv).1 (cDigits x conv).2 := by
  obtain ⟨hu, hx, hX⟩ := unsignedTmp_eq x
  cases conv with
  | d => exact emitSigned_eq hleft hzero x
  | u =>
    rw [printed, hu, emitTmp_eq hleft hzero]
    rfl
  | x =>
    rw [printed, hx, emitTmp_eq hleft hzero]
    rfl
  | upperX =>
    rw [printed, hX, emitTmp_eq hleft hzero]
    rfl

/-- A number is printed as C prints it. -/
theorem convert_int (m : Bool) (z : ℕ) (w : Width) (mod : LenMod) (conv : IntConv) (i : ℕ) :
    convert args strs i ⟨m, decide (0 < z), w.1, decide (mod = .ll)⟩ conv.byte
      = ((Piece.int (orderedFlags m z) w mod conv).cText args strs i,
        i + (Piece.int (orderedFlags m z) w mod conv).takes) := by
  have hleft := (minus_mem_orderedFlags m z).symm
  have hzero := (zero_mem_orderedFlags m z).symm
  rw [convert_byte]
  unfold Piece.cText Piece.takes
  by_cases hll : mod = .ll
  · simp only [hll, decide_true, if_true]
    rw [arg64_eq, printed_eq hleft hzero]
  · simp only [hll, decide_false, if_false, Bool.false_eq_true]
    rw [printed_eq hleft hzero]

/-- As many hex digits as a value fits in are its numeral with zeros in
    front. -/
theorem hexDigits_eq {n : ℕ} (hn : 0 < n) {v : ℕ} (hv : v < 16 ^ n) :
    (List.range n).map (fun k => hexTable false (v / 16 ^ (n - 1 - k) % 16))
      = List.replicate (n - (numeral 16 v).length) (ch '0') ++ numeral 16 v := by
  induction n generalizing v with
  | zero => exact absurd hn (lt_irrefl 0)
  | succ n ih =>
    have hlast : hexTable false (v % 16) = ch (v % 16).digitChar :=
      hexTable_lower _ (Nat.mod_lt _ (by decide))
    have hfront : ∀ k ∈ List.range n, hexTable false (v / 16 ^ (n + 1 - 1 - k) % 16)
        = hexTable false (v / 16 / 16 ^ (n - 1 - k) % 16) := by
      intro k hk
      have hlt := List.mem_range.mp hk
      have hexp : n + 1 - 1 - k = n - 1 - k + 1 := by omega
      rw [hexp, Nat.pow_succ', ← Nat.div_div_eq_div_mul]
    rw [List.range_succ, List.map_append, List.map_congr_left hfront, List.map_singleton,
      show n + 1 - 1 - n = 0 by omega, Nat.pow_zero, Nat.div_one, hlast]
    have hdiv : v / 16 < 16 ^ n := by
      rw [Nat.pow_succ] at hv
      omega
    by_cases hsmall : v < 16
    · -- one digit: the digits before it are zeros
      have hnum : numeral 16 v = [ch v.digitChar] := by
        rw [numeral, Nat.toDigits_of_lt_base hsmall]
        rfl
      have hzeros : ∀ k ∈ List.range n, hexTable false (v / 16 / 16 ^ (n - 1 - k) % 16) = ch '0' := by
        intro k _
        rw [Nat.div_eq_of_lt hsmall, Nat.zero_div]
        rfl
      rw [List.map_congr_left hzeros, List.map_const', List.length_range, hnum,
        Nat.mod_eq_of_lt hsmall]
      rfl
    · have hpos : 0 < n := by
        by_contra h0
        obtain rfl := Nat.eq_zero_of_not_pos h0
        omega
      have hnum : numeral 16 v = numeral 16 (v / 16) ++ [ch (v % 16).digitChar] := by
        rw [numeral, Nat.toDigits_of_base_le (by decide) (not_lt.mp hsmall), List.map_append]
        rfl
      rw [ih hpos hdiv, hnum, List.length_append, List.length_singleton, Nat.add_sub_add_right,
        List.append_assoc]

/-- The code's pointer is 0x and eight hex digits. -/
theorem pointer_eq (v : BitVec 32) :
    ([ch '0', ch 'x'] ++ (List.range 8).map fun k =>
      hexTable false ((v >>> (4 * (7 - k))) &&& 0xF).toNat) = cPointer v := by
  have hdigit : ∀ k ∈ List.range 8, hexTable false ((v >>> (4 * (7 - k))) &&& 0xF).toNat
      = hexTable false (v.toNat / 16 ^ (8 - 1 - k) % 16) := by
    intro k _
    have hmask : (0xF : BitVec 32).toNat = 2 ^ 4 - 1 := rfl
    rw [BitVec.toNat_and, BitVec.toNat_ushiftRight, hmask, Nat.and_two_pow_sub_one_eq_mod,
      Nat.shiftRight_eq_div_pow, Nat.pow_mul]
  rw [List.map_congr_left hdigit, hexDigits_eq (by decide) v.isLt]
  rfl

theorem cPointer_length (v : BitVec 32) : (cPointer v).length = 10 := by
  rw [← pointer_eq, List.length_append, List.length_map, List.length_range]
  rfl

theorem convert_str (s : Spec) (i : ℕ) :
    convert args strs i s (ch 's') =
      (cField s.left s.width (if args i = 0 then nullText else strs (args i)), i + 1) := by
  rw [← field_eq]
  unfold convert
  rw [if_neg (by decide), if_neg (by decide), if_neg (by decide), if_pos rfl]

theorem convert_chr (s : Spec) (i : ℕ) :
    convert args strs i s (ch 'c') = ([(args i).setWidth 8], i + 1) := by
  unfold convert
  rw [if_neg (by decide), if_neg (by decide), if_neg (by decide), if_neg (by decide), if_pos rfl]

theorem convert_ptr (s : Spec) (i : ℕ) :
    convert args strs i s (ch 'p') = (cPointer (args i), i + 1) := by
  unfold convert
  rw [if_neg (by decide), if_neg (by decide), if_neg (by decide), if_neg (by decide),
    if_neg (by decide), if_pos rfl, pointer_eq]

theorem convert_percent (s : Spec) (i : ℕ) : convert args strs i s (ch '%') = ([ch '%'], i) := by
  unfold convert
  rw [if_neg (by decide), if_neg (by decide), if_neg (by decide), if_neg (by decide),
    if_neg (by decide), if_neg (by decide), if_pos rfl]

/-- A '-' is no conversion. -/
theorem convert_dash (s : Spec) (i : ℕ) :
    convert args strs i s (ch '-') = ([ch '%', ch '-'], i) := by
  unfold convert
  rw [if_neg (by decide), if_neg (by decide), if_neg (by decide), if_neg (by decide),
    if_neg (by decide), if_neg (by decide), if_neg (by decide)]

/-- The piece is read whole: the formatter prints `text`, and C the same
    text with `pad` blanks on one side. -/
structure Synced (args : ℕ → BitVec 32) (strs : BitVec 32 → List Byte) (p : Piece) (i : ℕ)
    (text : List Byte) (pad : ℕ) : Prop where
  code : ∀ f, npuVsprintf args strs (p.bytes ++ f) i
    = text ++ npuVsprintf args strs f (i + p.takes)
  spec : p.cText args strs i = text ++ blanks pad ∨ p.cText args strs i = blanks pad ++ text
  plain : p.Plain ↔ pad = 0

/-- A text in a field has its blanks on one side. -/
theorem cField_sides (m : Bool) (w : ℕ) (text : List Byte) :
    cField m w text = text ++ blanks (w - text.length) ∨
      cField m w text = blanks (w - text.length) ++ text := by
  cases m with
  | false => exact .inr rfl
  | true => exact .inl rfl

theorem synced_lit (b : Literal) (i : ℕ) : Synced args strs (.lit b) i [b.1] 0 where
  code f := by
    show npuVsprintf args strs (b.1 :: f) i = _
    rw [npuVsprintf, if_pos b.2.1]
    rfl
  spec := .inl rfl
  plain := ⟨fun _ => rfl, fun _ => trivial⟩

theorem synced_percent (i : ℕ) : Synced args strs .percent i [ch '%'] 0 where
  code f := by
    have h := npuVsprintf_directive args strs (c := ch '%') (by decide)
      (m := false) (z := 0) ⟨0, by decide⟩ .none (.inl (by decide)) f i
    rw [convert_percent] at h
    exact h
  spec := .inl rfl
  plain := ⟨fun _ => rfl, fun _ => trivial⟩

theorem ends_byte (conv : IntConv) : Ends conv.byte := by cases conv <;> decide

theorem byte_ne_dash (conv : IntConv) : conv.byte ≠ ch '-' := by cases conv <;> decide

theorem synced_int (m : Bool) (z : ℕ) (w : Width) (mod : LenMod) (conv : IntConv) (i : ℕ) :
    Synced args strs (.int (orderedFlags m z) w mod conv) i
      ((Piece.int (orderedFlags m z) w mod conv).cText args strs i) 0 where
  code f := by
    have h := npuVsprintf_directive args strs (ends_byte conv) w mod
      (.inl (byte_ne_dash conv)) f i (m := m) (z := z)
    rw [convert_int] at h
    exact h
  spec := .inr rfl
  plain := by
    refine ⟨fun _ => rfl, fun _ => ?_⟩
    show Flag.minus ∉ (orderedFlags m z).tail
    cases m <;> cases z <;> simp [orderedFlags, alignment]

theorem synced_str (m : Bool) (w : Width) (i : ℕ) :
    Synced args strs (.str m w) i ((Piece.str m w).cText args strs i) 0 where
  code f := by
    have h := npuVsprintf_directive args strs (c := ch 's') (by decide) w .none
      (.inl (by decide)) f i (m := m) (z := 0)
    rw [convert_str, orderedFlags, List.replicate_zero, List.append_nil] at h
    exact h
  spec := .inr rfl
  plain := ⟨fun _ => rfl, fun _ => trivial⟩

theorem synced_chr (m : Bool) (w : Width) (i : ℕ) :
    Synced args strs (.chr m w) i [(args i).setWidth 8] (w.1 - 1) where
  code f := by
    have h := npuVsprintf_directive args strs (c := ch 'c') (by decide) w .none
      (.inl (by decide)) f i (m := m) (z := 0)
    rw [convert_chr, orderedFlags, List.replicate_zero, List.append_nil] at h
    exact h
  spec := cField_sides m w.1 _
  plain := Nat.sub_eq_zero_iff_le.symm

theorem synced_ptr (m : Bool) (w : Width) (i : ℕ) :
    Synced args strs (.ptr m w) i (cPointer (args i)) (w.1 - 10) where
  code f := by
    have h := npuVsprintf_directive args strs (c := ch 'p') (by decide) w .none
      (.inl (by decide)) f i (m := m) (z := 0)
    rw [convert_ptr, orderedFlags, List.replicate_zero, List.append_nil] at h
    exact h
  spec := by
    have h := cField_sides m w.1 (cPointer (args i))
    rw [cPointer_length] at h
    exact h
  plain := Nat.sub_eq_zero_iff_le.symm

/-- A '-' behind another flag is printed, with the '%' before it. -/
theorem misread_int (args : ℕ → BitVec 32) (strs : BitVec 32 → List Byte) {m : Bool} {z : ℕ}
    (h : m = true ∨ 0 < z) (rest : List Flag) (w : Width) (mod : LenMod) (conv : IntConv) (f : List Byte) (i : ℕ) :
    ∃ more, npuVsprintf args strs
      ((Piece.int (orderedFlags m z ++ .minus :: rest) w mod conv).bytes ++ f) i = ch '%' :: more := by
  have hbytes : (Piece.int (orderedFlags m z ++ .minus :: rest) w mod conv).bytes ++ f
      = ch '%' :: directiveBytes (orderedFlags m z) ⟨0, by decide⟩ .none (ch '-')
        ++ (directiveBytes rest w mod conv.byte ++ f) := by
    rw [Piece.bytes, directiveBytes, directiveBytes, directiveBytes, List.map_append]
    simp only [List.append_assoc, List.cons_append, List.map_cons]
    rfl
  rw [hbytes, npuVsprintf_directive _ _ (by decide) _ _ (.inr h), convert_dash]
  exact ⟨_, rfl⟩

theorem cDigits_head {n : ℕ} (x : BitVec n) (conv : IntConv) (more : List Byte) :
    ∃ b t, (cDigits x conv).1 ++ (cDigits x conv).2 ++ more = b :: t ∧ b ≠ ch '%' := by
  obtain ⟨b, ds, hds⟩ := List.exists_cons_of_ne_nil (cDigits_ne_nil x conv)
  have hb : b ≠ ch '%' := cDigits_ne (by decide) (hds ▸ List.mem_cons_self)
  have hsign : (cDigits x conv).1 = [] ∨ (cDigits x conv).1 = [ch '-'] := by
    cases conv with
    | d =>
      rw [cDigits]
      split_ifs
      · exact .inr rfl
      · exact .inl rfl
    | u => exact .inl rfl
    | x => exact .inl rfl
    | upperX => exact .inl rfl
  rw [hds]
  rcases hsign with h | h
  · exact ⟨b, ds ++ more, by rw [h]; rfl, hb⟩
  · exact ⟨ch '-', b :: ds ++ more, by rw [h]; rfl, by decide⟩

/-- A left aligned number begins with its sign or a digit. -/
theorem cText_int_head (args : ℕ → BitVec 32) (strs : BitVec 32 → List Byte) {flags : List Flag}
    (h : Flag.minus ∈ flags) (w : Width) (mod : LenMod) (conv : IntConv) (i : ℕ) :
    ∃ b t, (Piece.int flags w mod conv).cText args strs i = b :: t ∧ b ≠ ch '%' := by
  rw [Piece.cText, cNumber, if_pos h]
  by_cases hll : mod = .ll
  · rw [if_pos hll]
    exact cDigits_head (args (i + 1) ++ args i) conv _
  · rw [if_neg hll]
    exact cDigits_head (args i) conv _

/-! ## Formats -/

/-- Blanks that stand before a common text stand before what follows it. -/
theorem shift_replicate {α : Type} {b : α} (text : List α) {n : ℕ} {xs ys : List α}
    (h : text ++ xs = List.replicate n b ++ (text ++ ys)) : xs = List.replicate n b ++ ys := by
  induction text generalizing n with
  | nil => exact h
  | cons a text ih =>
    cases n with
    | zero => exact (List.append_cancel_left h : xs = ys)
    | succ n =>
      rw [List.replicate_succ, List.cons_append, List.cons_append] at h
      obtain ⟨hab, htext⟩ := List.cons.inj h
      refine ih ?_
      rw [htext, hab, List.replicate_succ', List.append_assoc]
      rfl

/-- A piece is read whole, or it is a number whose '-' comes late. -/
theorem synced_or (args : ℕ → BitVec 32) (strs : BitVec 32 → List Byte) (p : Piece) (i : ℕ) :
    (∃ text pad, Synced args strs p i text pad) ∨
      (∃ flags w mod conv, p = .int flags w mod conv ∧ Flag.minus ∈ flags.tail) := by
  cases p with
  | lit b => exact .inl ⟨_, _, synced_lit b i⟩
  | percent => exact .inl ⟨_, _, synced_percent i⟩
  | int flags w mod conv =>
    by_cases h : Flag.minus ∈ flags.tail
    · exact .inr ⟨flags, w, mod, conv, rfl, h⟩
    · obtain ⟨m, z, rfl⟩ := orderedFlags_of_notMem h
      exact .inl ⟨_, _, synced_int m z w mod conv i⟩
  | str m w => exact .inl ⟨_, _, synced_str m w i⟩
  | chr m w => exact .inl ⟨_, _, synced_chr m w i⟩
  | ptr m w => exact .inl ⟨_, _, synced_ptr m w i⟩

/-- Where the blanks the formatter left out so far and its text make up
    C's, none were left out and every piece is plain. -/
theorem plain_of_npuVsprintf (args : ℕ → BitVec 32) (strs : BitVec 32 → List Byte) (ps : List Piece) (i j : ℕ)
    (h : npuVsprintf args strs (render ps) i = blanks j ++ cVsprintf args strs ps i) :
    j = 0 ∧ ∀ p ∈ ps, p.Plain := by
  induction ps generalizing i j with
  | nil =>
    have hlen := congrArg List.length h
    rw [render, List.flatMap_nil, npuVsprintf, cVsprintf, blanks, List.append_nil,
      List.length_replicate] at hlen
    exact ⟨hlen.symm, fun p hp => absurd hp List.not_mem_nil⟩
  | cons p ps ih =>
    rw [render, List.flatMap_cons, cVsprintf] at h
    rcases synced_or args strs p i with
      ⟨text, pad, hsync⟩ | ⟨flags, w, mod, conv, rfl, hlate⟩
    · -- the piece's own blanks join those before it
      rw [hsync.code] at h
      have hrest : npuVsprintf args strs (render ps) (i + p.takes)
          = blanks (j + pad) ++ cVsprintf args strs ps (i + p.takes) := by
        have hjoin : ∀ l, blanks j ++ (blanks pad ++ l) = blanks (j + pad) ++ l := by
          intro l
          rw [← List.append_assoc, blanks, blanks, List.replicate_append_replicate]
          rfl
        rcases hsync.spec with hspec | hspec
        · rw [hspec, List.append_assoc] at h
          rw [← hjoin]
          exact shift_replicate text h
        · rw [hspec, List.append_assoc, hjoin] at h
          exact shift_replicate text h
      obtain ⟨hzero, hplain⟩ := ih _ _ hrest
      exact ⟨by omega, List.forall_mem_cons.mpr ⟨hsync.plain.mpr (by omega), hplain⟩⟩
    · -- the formatter prints a '%' here, and C a blank, a sign or a digit
      obtain ⟨m, z, rest, rfl, hmz⟩ := orderedFlags_of_mem hlate
      obtain ⟨more, hcode⟩ := misread_int args strs hmz rest w mod conv
        (ps.flatMap Piece.bytes) i
      obtain ⟨b, t, hspec, hb⟩ := cText_int_head args strs
        (List.mem_of_mem_tail hlate) w mod conv i
      rw [hcode, hspec] at h
      cases j with
      | zero => exact absurd (List.cons.inj h).1.symm hb
      | succ j => exact absurd (List.cons.inj h).1 (by decide)

/-- Plain pieces are printed as C prints them. -/
theorem npuVsprintf_of_plain (ps : List Piece) (i : ℕ) (h : ∀ p ∈ ps, p.Plain) :
    npuVsprintf args strs (render ps) i = cVsprintf args strs ps i := by
  induction ps generalizing i with
  | nil => rw [render, List.flatMap_nil, npuVsprintf, cVsprintf]
  | cons p ps ih =>
    obtain ⟨hp, hps⟩ := List.forall_mem_cons.mp h
    rcases synced_or args strs p i with
      ⟨text, pad, hsync⟩ | ⟨flags, w, mod, conv, rfl, hlate⟩
    · have hspec : p.cText args strs i = text := by
        rcases hsync.spec with hspec | hspec
        · rw [hspec, hsync.plain.mp hp]
          exact List.append_nil _
        · rw [hspec, hsync.plain.mp hp]
          rfl
      rw [render, List.flatMap_cons, hsync.code, cVsprintf, hspec]
      exact congrArg _ (ih _ hps)
    · exact absurd hlate hp

/-- The formatter prints what C prints exactly for the formats whose
    numbers have their '-' first and whose characters and pointers fill
    their fields. -/
theorem npuVsprintf_eq_iff (args : ℕ → BitVec 32) (strs : BitVec 32 → List Byte)
    (ps : List Piece) :
    npuVsprintf args strs (render ps) 0 = cVsprintf args strs ps 0 ↔ ∀ p ∈ ps, p.Plain := by
  constructor
  · intro h
    exact (plain_of_npuVsprintf args strs ps 0 0 h).2
  · exact npuVsprintf_of_plain ps 0

/-- `%5c` of an 'A' -/
theorem npuVsprintf_unpadded :
    ¬∀ (args : ℕ → BitVec 32) (strs : BitVec 32 → List Byte) (ps : List Piece),
      npuVsprintf args strs (render ps) 0 = cVsprintf args strs ps 0 := by
  intro h
  have hplain := (plain_of_npuVsprintf (fun _ => 65) (fun _ => [])
    [.chr false ⟨5, by decide⟩] 0 0 (h _ _ _)).2 _ List.mem_cons_self
  have hle : 5 ≤ 1 := hplain
  omega

end ClankerNPU.Console
