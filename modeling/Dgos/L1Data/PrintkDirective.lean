import Dgos.L1Data.Printk

/-!
# Conversion specifications for integers

A specification for an integer as the C standard has it: flags, a width, a precision, a length
modifier and a conversion. `Spec.prescribed` is what the standard prescribes for it, and `Spec.text`
what it looks like in a format string.

Results:
* `parseDirective_text`: the formatter reads the text of every specification.
* `directive_text`: and it goes on behind it, with the pieces for the argument printed.
-/
namespace Dgos.L1.Printk

open List Nat

/-! ## What the standard prescribes -/

inductive Flag where
  | minus | plus | hash | zero
  deriving DecidableEq, Repr

inductive Conversion where
  | d | i | u | x | X | o
  deriving DecidableEq, Repr

open Conversion

/-- A number does not begin with a zero: that would be a flag. -/
inductive Width where
  | absent
  | number (n : Nat) (pos : 0 < n) (lt : n < 2 ^ 31)
  | star (w : Nat)

inductive Precision where
  | absent
  | period
  | number (n : Nat) (lt : n < 2 ^ 31)
  | star (w : Nat)

open Precision

def Width.value : Width → Int
  | .absent => 0
  | .number n _ _ => n
  | .star w => toInt w

/-- A conversion specification for an integer. The flags come in any order, also repeatedly. -/
structure Spec where
  flags : List Flag
  width : Width
  precision : Precision
  length : LengthMod
  bits : Nat
  bits_eq : length.bits = some bits
  conversion : Conversion

namespace Conversion

def char : Conversion → UInt8
  | d => 0x64 | i => 0x69 | u => 0x75 | x => 0x78 | X => 0x58 | o => 0x6F

def base : Conversion → Nat
  | d | i | u => 10
  | x | X => 16
  | o => 8

def isSigned (c : Conversion) : Bool := c = d ∨ c = i

def isUpper (c : Conversion) : Bool := c = X

end Conversion

def digitBytes (upper : Bool) (base n : Nat) : List UInt8 :=
  (Nat.toDigits base n).map fun c => (if upper then c.toUpper else c).toUInt8

namespace Spec

variable (s : Spec) (w : Nat)

def has (f : Flag) : Bool := f ∈ s.flags

/-- A negative precision is taken as if it were omitted. -/
def givenPrecision : Option Nat :=
  match s.precision with
  | .absent => none
  | .period => some 0
  | .number n _ => some n
  | .star w => if toInt w < 0 then none else some (toInt w).toNat

/-- A negative width is taken as a `-` flag and a positive width. -/
def left : Bool := s.has .minus ∨ s.width.value < 0

/-- The argument, converted to the type of the length modifier. -/
def value : Int := if s.conversion.isSigned then Int.bmod w (2 ^ s.bits) else w % 2 ^ s.bits

def sign : List UInt8 :=
  if s.value w < 0 then [0x2D] else if s.conversion.isSigned && s.has .plus then [0x2B] else []

def digits : List UInt8 :=
  digitBytes s.conversion.isUpper s.conversion.base (s.value w).natAbs

def radix : List UInt8 :=
  if s.conversion.base = 16 ∧ s.has .hash ∧ s.value w ≠ 0 then
    [0x30, if s.conversion.isUpper then 0x58 else 0x78]
  else []

/-- The digits, as many as the precision asks for. -/
def precise : List UInt8 :=
  if s.value w = 0 ∧ s.givenPrecision = some 0 then []
  else List.replicate (s.givenPrecision.getD 1 - (s.digits w).length) 0x30 ++ s.digits w

/-- For the alternative form of octal numbers the first digit is forced to be a zero. -/
def number : List UInt8 :=
  if s.conversion.base = 8 ∧ s.has .hash ∧ (s.precise w).head? ≠ some 0x30 then
    0x30 :: s.precise w
  else s.precise w

/-- The characters that C99 prescribes (7.19.6.1). -/
def prescribed : List UInt8 :=
  let body := s.sign w ++ (s.radix w ++ s.number w)
  let missing := s.width.value.natAbs - body.length
  if s.left then body ++ List.replicate missing 0x20
  else if s.has .zero ∧ s.givenPrecision = none then
    s.sign w ++ (s.radix w ++ (List.replicate missing 0x30 ++ s.number w))
  else List.replicate missing 0x20 ++ body

end Spec

/-! ## The text of a specification -/

def Flag.char : Flag → UInt8
  | .minus => 0x2D | .plus => 0x2B | .hash => 0x23 | .zero => 0x30

def LengthMod.text : LengthMod → List UInt8
  | .none => []
  | .hh => [0x68, 0x68]
  | .h => [0x68]
  | .l => [0x6C]
  | .ll => [0x6C, 0x6C]
  | .j => [0x6A]
  | .z => [0x7A]
  | .t => [0x74]
  | .L => [0x4C]

def Width.text : Width → List UInt8
  | .absent => []
  | .number n _ _ => digitBytes false 10 n
  | .star _ => [0x2A]

def Width.args : Width → List Nat
  | .absent | .number .. => []
  | .star w => [w]

def Precision.text : Precision → List UInt8
  | .absent => []
  | .period => [0x2E]
  | .number n _ => 0x2E :: digitBytes false 10 n
  | .star _ => [0x2E, 0x2A]

def Precision.args : Precision → List Nat
  | .absent | .period | .number .. => []
  | .star w => [w]

/-- The directive behind its `%`, and what follows it in the format. -/
def Spec.text (s : Spec) (rest : List UInt8) : List UInt8 :=
  s.flags.map Flag.char ++
    (s.width.text ++ (s.precision.text ++ (s.length.text ++ s.conversion.char :: rest)))

/-- The arguments for the directive, and those behind them. -/
def Spec.args (s : Spec) (w : Nat) (tail : List Nat) : List Nat :=
  s.width.args ++ (s.precision.args ++ w :: tail)

section Parse

variable {ch : UInt8} {fp rest : List UInt8}

/-- What can come behind the flags. -/
def EndsFlags (fp : List UInt8) : Prop :=
  0x31 ≤ fp.headD 0 ∨ fp.headD 0 = 0x2A ∨ fp.headD 0 = 0x2E

theorem parseFlags_stop (h : EndsFlags fp) (flags : Flags) : parseFlags flags fp = (flags, fp) := by
  cases fp with
  | nil => rfl
  | cons ch fp =>
    have hne : ch ≠ 0x2D ∧ ch ≠ 0x2B ∧ ch ≠ 0x23 ∧ ch ≠ 0x30 := by
      rw [EndsFlags, headD_cons] at h
      refine ⟨?_, ?_, ?_, ?_⟩ <;> rintro rfl <;> revert h <;> decide
    rw [parseFlags, if_neg hne.1, if_neg hne.2.1, if_neg hne.2.2.1, if_neg hne.2.2.2]

/-- The flags as the code has them, in front of a width. -/
def withFlags (flags : Flags) (l : List Flag) : Flags :=
  { flags with
    leftJustify := flags.leftJustify || decide (.minus ∈ l)
    leadingPlus := flags.leadingPlus || decide (.plus ∈ l)
    hash := flags.hash || decide (.hash ∈ l)
    leadingZero := flags.leadingZero || decide (.zero ∈ l) }

theorem parseFlags_text (h : EndsFlags rest) (l : List Flag) (flags : Flags) :
    parseFlags flags (l.map Flag.char ++ rest) = (withFlags flags l, rest) := by
  induction l generalizing flags with
  | nil => simp [withFlags, parseFlags_stop h]
  | cons f l ih => cases f <;> simp [parseFlags, Flag.char, ih, withFlags]

/-! ### Numbers -/

/-- The step of `parse_int` for one digit. -/
def addDigit (n : Int) (ch : UInt8) : Int := toInt (n * 10 + (ch.toNat - 0x30))

theorem parseDigits_append {l : List UInt8} (hl : ∀ ch ∈ l, isDigit ch = true)
    (hrest : isDigit (rest.headD 0) = false) (n : Int) :
    parseDigits n (l ++ rest) = (l.foldl addDigit n, rest) := by
  induction l generalizing n with
  | nil =>
    cases rest with
    | nil => rfl
    | cons ch rest =>
      rw [headD_cons] at hrest
      rw [nil_append, parseDigits, hrest]
      rfl
  | cons ch l ih =>
    rw [cons_append, parseDigits, if_pos (hl ch mem_cons_self)]
    exact ih (fun c hc => hl c (mem_cons_of_mem ch hc)) _

theorem digitChar_ten : ∀ d < 10, isDigit (digitChar d).toUInt8 = true ∧
    (digitChar d).toUInt8.toNat = 0x30 + d := by
  decide

theorem digitBytes_ten {n : Nat} : (n < 10 → digitBytes false 10 n = [(digitChar n).toUInt8]) ∧
    (10 ≤ n → digitBytes false 10 n =
      digitBytes false 10 (n / 10) ++ [(digitChar (n % 10)).toUInt8]) := by
  constructor
  · intro h
    simp [digitBytes, toDigits_of_lt_base h]
  · intro h
    simp [digitBytes, toDigits_of_base_le (by decide : 1 < 10) h]

theorem isDigit_ne (h : isDigit ch = true) : ch ≠ 0x2A ∧ ch ≠ 0x2D := by
  constructor <;> rintro rfl <;> cases h

theorem digitBytes_ten_spec (n : Nat) (hlt : n < 2 ^ 31) :
    (∀ ch ∈ digitBytes false 10 n, isDigit ch = true) ∧
      (digitBytes false 10 n).foldl addDigit 0 = n := by
  induction n using Nat.strongRecOn with
  | _ n ih =>
  rcases lt_or_ge n 10 with h | h
  · obtain ⟨hdigit, hval⟩ := digitChar_ten n h
    rw [digitBytes_ten.1 h]
    refine ⟨by simpa using hdigit, ?_⟩
    rw [foldl_cons, foldl_nil, addDigit, toInt_of_lt] <;> omega
  · obtain ⟨hdigits, hfold⟩ := ih (n / 10) (by omega) (by omega)
    obtain ⟨hdigit, hval⟩ := digitChar_ten (n % 10) (by omega)
    rw [digitBytes_ten.2 h]
    refine ⟨forall_mem_append.2 ⟨hdigits, forall_mem_singleton.2 hdigit⟩, ?_⟩
    rw [foldl_append, foldl_cons, foldl_nil, addDigit, toInt_of_lt] <;> omega

theorem digitBytes_head (upper : Bool) (base n : Nat) :
    ∃ ch l, digitBytes upper base n = ch :: l := by
  have hpos : 0 < (digitBytes upper base n).length := by
    rw [digitBytes, length_map]
    exact length_toDigits_pos
  cases h : digitBytes upper base n with
  | nil =>
    rw [h] at hpos
    cases hpos
  | cons ch l => exact ⟨ch, l, rfl⟩

theorem parseInt_digitBytes {n : Nat} (hlt : n < 2 ^ 31) (hrest : isDigit (rest.headD 0) = false) :
    parseInt (digitBytes false 10 n ++ rest) = ((n : Int), rest) := by
  obtain ⟨hdigits, hfold⟩ := digitBytes_ten_spec n hlt
  obtain ⟨ch, l, heq⟩ := digitBytes_head false 10 n
  have hne := (isDigit_ne (hdigits ch (heq ▸ mem_cons_self))).2
  have hhead : (digitBytes false 10 n ++ rest).headD 0 ≠ 0x2D := by rwa [heq]
  rw [parseInt, if_neg hhead, parseDigits_append hdigits hrest, hfold]

theorem digitChar_ne_zero : ∀ d < 16, d ≠ 0 → ∀ upper : Bool,
    (if upper then (digitChar d).toUpper else digitChar d).toUInt8 ≠ 0x30 := by
  decide

theorem digitBytes_head_ne (upper : Bool) {base : Nat} (hge : 2 ≤ base) (hle : base ≤ 16) (n : Nat)
    (hn : n ≠ 0) : ∃ ch l, digitBytes upper base n = ch :: l ∧ ch ≠ 0x30 := by
  induction n using Nat.strongRecOn with
  | _ n ih =>
  rcases lt_or_ge n base with h | h
  · refine ⟨_, [], by rw [digitBytes, toDigits_of_lt_base h]; rfl, ?_⟩
    exact digitChar_ne_zero n (by omega) hn upper
  · have hlt : n / base < n := div_lt_self (by omega) (by omega)
    have hne : n / base ≠ 0 := (div_pos h (by omega)).ne'
    obtain ⟨ch, l, heq, hch⟩ := ih (n / base) hlt hne
    rw [digitBytes, toDigits_of_base_le (by omega) h, map_append, ← digitBytes, heq]
    exact ⟨ch, _, rfl, hch⟩

/-! ### Width, precision and length -/

/-- What can come behind a width and a precision. -/
def EndsNumber (fp : List UInt8) : Prop := 0x4C ≤ fp.headD 0

theorem endsNumber_text (len : LengthMod) (c : Conversion) (rest : List UInt8) :
    EndsNumber (len.text ++ c.char :: rest) := by
  have hhead : (len.text ++ c.char :: rest).headD 0 = len.text.headD c.char := by cases len <;> rfl
  rw [EndsNumber, hhead]
  cases len <;> cases c <;> decide

theorem EndsNumber.ne (h : EndsNumber fp) :
    isDigit (fp.headD 0) = false ∧ fp.headD 0 ≠ 0x2A ∧ fp.headD 0 ≠ 0x2E := by
  rw [EndsNumber] at h
  generalize fp.headD 0 = ch at h
  have hne : ch ≠ 0x2A ∧ ch ≠ 0x2E := by
    constructor <;> rintro rfl <;> revert h <;> decide
  refine ⟨?_, hne⟩
  rw [isDigit, decide_eq_false_iff_not]
  intro hd
  exact absurd (UInt8.le_trans h hd.2) (by decide)

def Width.given : Width → Bool
  | .absent => false
  | .number .. | .star _ => true

theorem parseWidth_text (w : Width) (flags : Flags) (args : List Nat)
    (hflags : flags.minWidth = 0 ∧ flags.hasMinWidth = false)
    (hrest : isDigit (rest.headD 0) = false ∧ rest.headD 0 ≠ 0x2A) :
    parseWidth flags (w.text ++ rest) (w.args ++ args) =
      .ok ({ flags with hasMinWidth := w.given, minWidth := w.value }, rest, args) := by
  cases w with
  | absent =>
    have hdigit : ¬ isDigit (rest.headD 0) = true := by
      rw [hrest.1]
      exact Bool.false_ne_true
    rw [Width.text, nil_append, parseWidth, if_neg hrest.2, if_neg hdigit, Width.args,
      nil_append, Width.given, Width.value, ← hflags.1, ← hflags.2]
  | number n pos lt =>
    obtain ⟨ch, l, heq, hne⟩ := digitBytes_head_ne false (by decide) (by decide : 10 ≤ 16) n pos.ne'
    have hdigit := (digitBytes_ten_spec n lt).1 ch (heq ▸ mem_cons_self)
    have hhead : (digitBytes false 10 n ++ rest).headD 0 = ch := by rw [heq]; rfl
    simp only [Width.text, Width.args, Width.given, Width.value, nil_append]
    rw [parseWidth, hhead, if_neg (isDigit_ne hdigit).1, if_pos hdigit, if_neg hne,
      parseInt_digitBytes lt hrest.1]
  | star w => rfl

def Precision.given : Precision → Bool
  | .absent | .period => false
  | .number .. | .star _ => true

/-- The precision as far as it is read from the format or the arguments. -/
def Precision.value : Precision → Int
  | .absent | .period => 0
  | .number n _ => n
  | .star w => toInt w

theorem parsePrecision_text (p : Precision) (flags : Flags) (args : List Nat)
    (hflags : flags.precision = 0 ∧ flags.hasPrecision = false) (hrest : EndsNumber rest) :
    parsePrecision flags (p.text ++ rest) (p.args ++ args) =
      .ok ({ flags with hasPrecision := p.given, precision := p.value }, rest, args) := by
  obtain ⟨hdigit, hstar, hperiod⟩ := hrest.ne
  cases p with
  | absent =>
    rw [Precision.text, nil_append, parsePrecision, if_pos hperiod, Precision.args,
      nil_append, Precision.given, Precision.value, ← hflags.1, ← hflags.2]
  | period =>
    have hminus : ¬ (rest.headD 0 = 0x2D ∨ isDigit (rest.headD 0) = true) := by
      rw [hdigit]
      rintro (h | h)
      · rw [EndsNumber, h] at hrest
        revert hrest
        decide
      · cases h
    have hhead : ¬ (period.text ++ rest).headD 0 ≠ 0x2E := not_not.mpr rfl
    have htail : (period.text ++ rest).tail = rest := rfl
    rw [parsePrecision, if_neg hhead, htail, if_neg (fun h => hstar h.2), if_neg hminus,
      Precision.args, nil_append, Precision.given, Precision.value, ← hflags.1, ← hflags.2]
  | number n lt =>
    obtain ⟨ch, l, heq⟩ := digitBytes_head false 10 n
    have hch := (digitBytes_ten_spec n lt).1 ch (heq ▸ mem_cons_self)
    have hne := (isDigit_ne hch).1
    have hnum : numericPrecision flags n = n := by
      rw [numericPrecision, hflags.1]
      simp
    have hhead : ¬ ((number n lt).text ++ rest).headD 0 ≠ 0x2E := not_not.mpr rfl
    have htail : ((number n lt).text ++ rest).tail = digitBytes false 10 n ++ rest := rfl
    have hhead' : (digitBytes false 10 n ++ rest).headD 0 = ch := by rw [heq]; rfl
    rw [parsePrecision, if_neg hhead, htail, hhead', if_neg (fun h => hne h.2), if_pos (.inr hch),
      parseInt_digitBytes lt hdigit, hnum, Precision.args, nil_append, Precision.given,
      Precision.value]
  | star w =>
    have hhead : ¬ ((Precision.star w).text ++ rest).headD 0 ≠ 0x2E := not_not.mpr rfl
    rw [parsePrecision, if_neg hhead, if_pos ⟨hflags.1, rfl⟩]
    rfl

theorem parseLength_text (len : LengthMod) (c : Conversion) (rest : List UInt8) :
    parseLength (len.text ++ c.char :: rest) = (len, c.char :: rest) := by
  cases len <;> cases c <;> rfl

/-- The argument as it is taken. -/
def Spec.arg (s : Spec) (w : Nat) : Arg :=
  if s.conversion.isSigned then .intptrValue (s.value w) else .uintptrValue (s.value w).toNat

/-- The flags in front of the type specifier. -/
def Spec.parsed (s : Spec) : Flags :=
  { emptyFormatterFlags with
    leftJustify := s.has .minus
    leadingPlus := s.has .plus
    leadingZero := s.has .zero
    hash := s.has .hash
    hasMinWidth := s.width.given
    hasPrecision := s.precision.given
    minWidth := s.width.value
    precision := if !s.precision.given && s.has .zero then s.width.value else s.precision.value
    length := s.length }

/-- The flags behind it. -/
def Spec.taken (s : Spec) : Flags :=
  { s.parsed with upper := s.conversion.isUpper, base := s.conversion.base }

variable (m : Mem)

theorem takeArg_conversion (s : Spec) (w : Nat) (tail : List Nat) :
    takeArg m s.conversion.char s.parsed (w :: tail) =
      .ok (some (s.taken, s.arg w, tail, none)) := by
  obtain ⟨fs, width, prec, len, bits, hbits, c⟩ := s
  have hvalue : ((w : Int) % 2 ^ bits).toNat = w % 2 ^ bits := Int.toNat_natCast (w % 2 ^ bits)
  cases c <;>
    simp [takeArg, char, hbits, vaArg, Spec.arg, Spec.value, isSigned,
      isUpper, base, hvalue, Spec.parsed, Spec.taken, emptyFormatterFlags]

theorem endsFlags_text (s : Spec) (rest : List UInt8) :
    EndsFlags (s.width.text ++ (s.precision.text ++ (s.length.text ++ s.conversion.char :: rest))) := by
  have hend := endsNumber_text s.length s.conversion rest
  have hprec : EndsFlags (s.precision.text ++ (s.length.text ++ s.conversion.char :: rest)) := by
    cases s.precision with
    | absent => exact .inl (UInt8.le_trans (by decide) hend)
    | period => exact .inr (.inr rfl)
    | number n lt => exact .inr (.inr rfl)
    | star w => exact .inr (.inr rfl)
  cases s.width with
  | absent => exact hprec
  | number n pos lt =>
    obtain ⟨ch, l, heq, hne⟩ := digitBytes_head_ne false (by decide) (by decide : 10 ≤ 16) n pos.ne'
    have hdigit := (digitBytes_ten_spec n lt).1 ch (heq ▸ mem_cons_self)
    rw [Width.text, heq]
    refine .inl ?_
    rw [isDigit, decide_eq_true_iff] at hdigit
    rw [Ne, ← UInt8.toNat_inj] at hne
    exact lt_of_le_of_ne hdigit.1 (Ne.symm hne)
  | star w => exact .inr (.inl rfl)

theorem endsWidth_text (s : Spec) (rest : List UInt8) :
    isDigit ((s.precision.text ++ (s.length.text ++ s.conversion.char :: rest)).headD 0) = false ∧
      (s.precision.text ++ (s.length.text ++ s.conversion.char :: rest)).headD 0 ≠ 0x2A := by
  have hend := (endsNumber_text s.length s.conversion rest).ne
  have hperiod : isDigit 0x2E = false ∧ (0x2E : UInt8) ≠ 0x2A := by decide
  cases s.precision with
  | absent => exact ⟨hend.1, hend.2.1⟩
  | period => exact hperiod
  | number n lt => exact hperiod
  | star w => exact hperiod

theorem parseDirective_text (s : Spec) (w : Nat) (rest : List UInt8) (tail : List Nat) :
    parseDirective (s.text rest) (s.args w tail) =
      .ok (s.parsed, s.conversion.char :: rest, w :: tail) := by
  have hend := endsNumber_text s.length s.conversion rest
  rw [parseDirective, Spec.text, parseFlags_text (endsFlags_text s rest)]
  refine (ok_bind (parseWidth_text s.width _ _ ⟨rfl, rfl⟩ (endsWidth_text s rest)) _).trans ?_
  refine (ok_bind (parsePrecision_text s.precision _ _ ⟨rfl, rfl⟩ hend) _).trans ?_
  simp only [parseLength_text]
  rfl

theorem directive_text (s : Spec) (w : Nat) (rest : List UInt8) (tail : List Nat)
    {pieces : List Piece} (h : argPieces s.taken (s.arg w) = .ok pieces) :
    directive m (s.text rest) (s.args w tail) = .ok (some ⟨none, pieces, rest, tail⟩) := by
  rw [directive, ok_bind (parseDirective_text s w rest tail)]
  simp only [headD_cons]
  rw [ok_bind (takeArg_conversion m s w tail)]
  simp only
  rw [ok_bind h]
  rfl

end Parse

end Dgos.L1.Printk
