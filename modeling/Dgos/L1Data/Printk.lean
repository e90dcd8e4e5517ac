import Dgos.Core.Outcome
import Dgos.L1Data.Utf8

/-!
# The formatter (kernel/lib/printk.cc)

`formatter` goes through a format string and hands the output to a callback, in pieces: a span of
literal characters, a terminated string or a single code point. The callback's results are added up.

A pointer into the format is the list of the bytes from there on, with a terminator behind the last
one. The arguments are machine words. What C leaves undefined (an argument that is not there, a read
behind a string) is an error here; signed overflow wraps around, as the machine does it. The build is
the kernel's, so there are no floating point conversions.

Results:
* `formatter_ends`: the formatter comes to an end.
* `format_inside_iff`: it does not read on behind the terminator of the format, unless a directive
  is cut off by it.
-/
namespace Dgos.L1.Printk

open List Nat Int

inductive Err where
  /-- `va_arg` without an argument -/
  | noArgument
  /-- a read behind the accessible bytes -/
  | outOfBounds
  | fuel
  deriving DecidableEq, Repr

/-- The strings that the arguments point to: the bytes that may be read from there on. -/
structure Mem where
  chars : Nat → List UInt8
  wchars : Nat → List UInt32

/-- A number as an `int`. -/
def toInt (n : Int) : Int := n.bmod (2 ^ 32)

theorem toInt_of_lt {n : Int} (hge : -2 ^ 31 ≤ n) (hlt : n < 2 ^ 31) : toInt n = n := by
  rw [toInt, bmod_def]
  omega

theorem toInt_bounds (n : Int) : -2 ^ 31 ≤ toInt n ∧ toInt n < 2 ^ 31 := by
  rw [toInt, bmod_def]
  omega

/-- mirrors printk.cc:16-26 -/
inductive LengthMod where
  | none | hh | h | l | ll | j | z | t | L
  deriving DecidableEq, Repr

/-- The argument of a conversion, with its type.
mirrors printk.cc:28-48 -/
inductive Arg where
  | none
  | charPtr (s : List UInt8)
  | wcharPtr (s : List UInt32)
  | character (c : Int)
  | intptrValue (n : Int)
  | uintptrValue (n : Nat)
  deriving DecidableEq, Repr

/-- mirrors printk.cc:50-73 -/
structure Flags where
  leftJustify : Bool
  leadingPlus : Bool
  leadingZero : Bool
  hash : Bool
  upper : Bool
  negative : Bool
  hasMinWidth : Bool
  hasPrecision : Bool
  limitString : Bool
  minWidth : Int
  precision : Int
  base : Nat
  pendingLeadingZeros : Int
  pendingPadding : Int
  maxChars : Int
  length : LengthMod
  deriving DecidableEq, Repr

/-- mirrors printk.cc:75 -/
def emptyFormatterFlags : Flags :=
  ⟨false, false, false, false, false, false, false, false, false, 0, 0, 0, 0, 0, 0, .none⟩

/-! ## Parsing a directive -/

/-- `va_arg`: the next machine word. -/
def vaArg : List Nat → Except Err (Nat × List Nat)
  | [] => .error .noArgument
  | w :: args => .ok (w, args)

def isDigit (ch : UInt8) : Bool := 0x30 ≤ ch ∧ ch ≤ 0x39

/-- mirrors printk.cc:89-90 -/
def parseDigits (n : Int) : List UInt8 → Int × List UInt8
  | [] => (n, [])
  | ch :: p => if isDigit ch then parseDigits (toInt (n * 10 + (ch.toNat - 0x30))) p else (n, ch :: p)

/-- The number, and the pointer to the first character that is not a digit.
mirrors printk.cc:77-96 -/
def parseInt (p : List UInt8) : Int × List UInt8 :=
  if p.headD 0 = 0x2D then
    let (n, p) := parseDigits 0 p.tail
    (toInt (n * -1), p)
  else parseDigits 0 p

/-- mirrors printk.cc:325-350 -/
def parseFlags (flags : Flags) : List UInt8 → Flags × List UInt8
  | [] => (flags, [])
  | ch :: fp =>
    if ch = 0x2D then parseFlags { flags with leftJustify := true } fp
    else if ch = 0x2B then parseFlags { flags with leadingPlus := true } fp
    else if ch = 0x23 then parseFlags { flags with hash := true } fp
    else if ch = 0x30 then parseFlags { flags with leadingZero := true } fp
    else (flags, ch :: fp)

/-- mirrors printk.cc:352-366 -/
def parseWidth (flags : Flags) (fp : List UInt8) (args : List Nat) :
    Except Err (Flags × List UInt8 × List Nat) :=
  if fp.headD 0 = 0x2A then do
    let (w, args) ← vaArg args
    return ({ flags with hasMinWidth := true, minWidth := toInt w }, fp.tail, args)
  else if isDigit (fp.headD 0) then
    .ok ({ flags with
      hasMinWidth := true
      minWidth := (parseInt fp).1
      precision := if fp.headD 0 = 0x30 then (parseInt fp).1 else flags.precision },
      (parseInt fp).2, args)
  else .ok (flags, fp, args)

/-- What a number in the format gives for the precision.
mirrors printk.cc:380-387 -/
def numericPrecision (flags : Flags) (n : Int) : Int :=
  let precision := if flags.precision ≠ 0 then flags.precision else n
  if precision < 0 then 0 else precision

/-- mirrors printk.cc:368-390 -/
def parsePrecision (flags : Flags) (fp : List UInt8) (args : List Nat) :
    Except Err (Flags × List UInt8 × List Nat) :=
  if fp.headD 0 ≠ 0x2E then .ok (flags, fp, args)
  else if flags.precision = 0 ∧ fp.tail.headD 0 = 0x2A then do
    let (w, args) ← vaArg args
    return ({ flags with hasPrecision := true, precision := toInt w }, fp.tail.tail, args)
  else if fp.tail.headD 0 = 0x2D ∨ isDigit (fp.tail.headD 0) then
    .ok ({ flags with
      hasPrecision := true
      precision := numericPrecision flags (parseInt fp.tail).1 }, (parseInt fp.tail).2, args)
  else .ok (flags, fp.tail, args)

/-- mirrors printk.cc:392-396 -/
def zeroPrecision (flags : Flags) : Flags :=
  { flags with
    precision := if !flags.hasPrecision && flags.leadingZero then flags.minWidth
      else flags.precision }

/-- mirrors printk.cc:398-442 -/
def parseLength (fp : List UInt8) : LengthMod × List UInt8 :=
  let ch := fp.headD 0
  if ch = 0x68 then if fp.tail.headD 0 = 0x68 then (.hh, fp.tail.tail) else (.h, fp.tail)
  else if ch = 0x6C then if fp.tail.headD 0 = 0x6C then (.ll, fp.tail.tail) else (.l, fp.tail)
  else if ch = 0x6A then (.j, fp.tail)
  else if ch = 0x7A then (.z, fp.tail)
  else if ch = 0x74 then (.t, fp.tail)
  else if ch = 0x4C then (.L, fp.tail)
  else (.none, fp)

/-- The directive behind its `%`, up to the type specifier.
mirrors printk.cc:325-442 -/
def parseDirective (fp : List UInt8) (args : List Nat) :
    Except Err (Flags × List UInt8 × List Nat) := do
  let (flags, fp) := parseFlags emptyFormatterFlags fp
  let (flags, fp, args) ← parseWidth flags fp args
  let (flags, fp, args) ← parsePrecision flags fp args
  return ({ zeroPrecision flags with length := (parseLength fp).1 }, (parseLength fp).2, args)

/-! ## Output -/

/-- What the callback gets: a code point, a terminated string or a span. -/
inductive Piece where
  | code (ch : Int)
  | text (s : List UInt8)
  | span (s : List UInt8)

def Piece.bytes : Piece → List UInt8
  | .code ch => Utf8.ucs4ToUtf8 (ch % 2 ^ 32).toNat
  | .text s => s
  | .span s => s

/-- A callback that takes everything. -/
def collect (p : Piece) (out : List UInt8) : Int × List UInt8 :=
  (toInt p.bytes.length, out ++ p.bytes)

/-- `chars_written`, what the callback keeps, and what was stored through pointers. -/
structure St (σ : Type) where
  charsWritten : Int
  context : σ
  stored : List (Nat × Int)

variable {σ : Type} (m : Mem) (emitChars : Piece → σ → Int × σ)

def St.emit (st : St σ) (p : Piece) : St σ :=
  { st with
    charsWritten := st.charsWritten + (emitChars p st.context).1
    context := (emitChars p st.context).2 }

def St.emitEach (st : St σ) (ps : List Piece) : St σ := ps.foldl (St.emit emitChars) st

/-- `*output_arg = chars_written`, where there is a pointer. -/
def St.store (st : St σ) : Option Nat → St σ
  | none => st
  | some p => { st with stored := st.stored ++ [(p, toInt st.charsWritten)] }

/-- The bits of an integer argument, for the length modifiers that integers have. -/
def LengthMod.bits : LengthMod → Option Nat
  | .hh => some 8
  | .h => some 16
  | .none => some 32
  | .l | .ll | .j | .z | .t => some 64
  | .L => Option.none

def nullText : List UInt8 := [0x28, 0x6E, 0x75, 0x6C, 0x6C, 0x29, 0]

/-- The string, or what is printed for a null pointer.
mirrors printk.cc:471-488 -/
def orNull {α : Type} (flags : Flags) (p : Nat) (s null empty : List α) : List α :=
  if p ≠ 0 then s else if !flags.hasPrecision || 6 ≤ flags.precision then null else empty

/-- Takes the argument for the type specifier; nothing if the length modifier is not for it. The
last part of the result is the pointer that the count is stored through.
mirrors printk.cc:444-662 -/
def takeArg (m : Mem) (ch : UInt8) (flags : Flags) (args : List Nat) :
    Except Err (Option (Flags × Arg × List Nat × Option Nat)) :=
  if ch = 0x63 then
    match flags.length with
    | .l => do
      let (w, args) ← vaArg args
      return some (flags, .character (toInt w), args, none)
    | .none => do
      let (w, args) ← vaArg args
      return some (flags, .character (Int.bmod w (2 ^ 8)), args, none)
    | _ => return none
  else if ch = 0x73 then
    let flags := if flags.hasPrecision then
      { flags with limitString := true, maxChars := flags.precision } else flags
    match flags.length with
    | .l => do
      let (w, args) ← vaArg args
      let s := orNull flags w (m.wchars w) (nullText.map fun b => b.toUInt32) [0]
      return some (flags, .wcharPtr s, args, none)
    | .none => do
      let (w, args) ← vaArg args
      return some (flags, .charPtr (orNull flags w (m.chars w) nullText [0]), args, none)
    | _ => return none
  else if ch = 0x64 ∨ ch = 0x69 then
    match flags.length.bits with
    | some bits => do
      let (w, args) ← vaArg args
      return some ({ flags with base := 10 }, .intptrValue (Int.bmod w (2 ^ bits)), args, none)
    | none => return none
  else if ch = 0x58 ∨ ch = 0x78 ∨ ch = 0x75 ∨ ch = 0x6F then
    let flags := { flags with
      upper := decide (0x41 ≤ ch ∧ ch ≤ 0x5A)
      base := if ch = 0x6F then 8 else if ch = 0x75 then 10 else 16 }
    match flags.length.bits with
    | some bits => do
      let (w, args) ← vaArg args
      return some (flags, .uintptrValue (w % 2 ^ bits), args, none)
    | none => return none
  else if ch = 0x70 then
    match flags.length with
    | .none => do
      let (w, args) ← vaArg args
      return some ({ flags with base := 16, hash := true }, .uintptrValue (w % 2 ^ 64), args, none)
    | _ => return none
  else if ch = 0x6E then
    match flags.length with
    | .none => do
      let (w, args) ← vaArg args
      return some (flags, .none, args, some w)
    | _ => return none
  else return some (flags, .none, args, none)

/-- mirrors printk.cc:281 -/
def formatterHexlookup : List UInt8 :=
  [0x30, 0x31, 0x32, 0x33, 0x34, 0x35, 0x36, 0x37, 0x38, 0x39, 0x61, 0x62, 0x63, 0x64, 0x65, 0x66,
    0x30, 0x31, 0x32, 0x33, 0x34, 0x35, 0x36, 0x37, 0x38, 0x39, 0x41, 0x42, 0x43, 0x44, 0x45, 0x46]

/-- `n -= (n > 0)`. -/
def down (n : Int) : Int := if 0 < n then n - 1 else n

/-- mirrors printk.cc:722-725 -/
def Flags.countDigit (flags : Flags) : Flags :=
  { flags with
    pendingLeadingZeros := down flags.pendingLeadingZeros
    pendingPadding := down flags.pendingPadding }

/-- The digits in front of those in `digits`, as long as there is room.
mirrors printk.cc:716-726 -/
def putDigits (flags : Flags) (value : Nat) (digits : List UInt8) : Nat → Flags × List UInt8
  | 0 => (flags, digits)
  | room + 1 =>
    let digit := formatterHexlookup.getD ((if flags.upper then 16 else 0) + value % flags.base) 0
    if value / flags.base = 0 then (flags.countDigit, digit :: digits)
    else putDigits flags.countDigit (value / flags.base) (digit :: digits) room

/-- Integers become strings; `digits` has 31 bytes in front of the terminator.
mirrors printk.cc:707-731 -/
def integerText (flags : Flags) (value : Nat) : Flags × List UInt8 :=
  putDigits { flags with
    pendingLeadingZeros := flags.precision
    pendingPadding := flags.minWidth
    hash := if value = 0 then false else flags.hash } value [0] 31

def strlen {α : Type} [DecidableEq α] [Zero α] (s : List α) : Except Err Nat :=
  if 0 ∈ s then .ok (s.takeWhile (· ≠ 0)).length else .error .outOfBounds

/-- `memchr(s, 0, n)` as an index. -/
def memchr (s : List UInt8) (n : Nat) : Except Err (Option Nat) :=
  if 0 ∈ s.take n then .ok (some (s.takeWhile (· ≠ 0)).length)
  else if n ≤ s.length then .ok none
  else .error .outOfBounds

/-- mirrors printk.cc:684-693 -/
def stringLength (flags : Flags) (s : List UInt8) : Except Err Int :=
  if !flags.limitString then do
    let len ← strlen s
    return toInt len
  else do
    match ← memchr s (flags.maxChars % 2 ^ 64).toNat with
    | some len => return toInt len
    | none => return flags.maxChars

/-- The padding, and the text of integers.
mirrors printk.cc:668-744 -/
def measure (flags : Flags) (arg : Arg) : Except Err (Flags × Arg) :=
  match arg with
  | .character _ =>
    .ok (if 1 < flags.minWidth then { flags with pendingPadding := flags.minWidth - 1 } else flags,
      arg)
  | .charPtr s => do
    let len ← stringLength flags s
    return (if len < flags.minWidth then
      { flags with pendingPadding := toInt (flags.minWidth - len) } else flags, arg)
  | .intptrValue n =>
    let (flags, s) := integerText { flags with negative := decide (n < 0) }
      ((if n < 0 then -n else n) % 2 ^ 64).toNat
    .ok (flags, .charPtr s)
  | .uintptrValue n =>
    let (flags, s) := integerText flags n
    .ok (flags, .charPtr s)
  | _ => .ok (flags, arg)

/-- The padding with room for a sign, and with the leading zeros in its place.
mirrors printk.cc:746-756 -/
def settledPadding (flags : Flags) : Int :=
  let padding := if flags.negative || flags.leadingPlus then down flags.pendingPadding
    else flags.pendingPadding
  if padding ≠ 0 ∧ !flags.leftJustify then
    if flags.pendingLeadingZeros < padding then toInt (padding - flags.pendingLeadingZeros) else 0
  else padding

/-- mirrors printk.cc:763-767 -/
def radixPieces (flags : Flags) : List Piece :=
  if flags.hash && flags.base == 16 then [.span [0x30, if flags.upper then 0x58 else 0x78]]
  else if flags.hash && flags.base == 8 then [.code 0x30] else []

/-- mirrors printk.cc:769-775 -/
def signPieces (flags : Flags) : List Piece :=
  if flags.negative then [.code 0x2D] else if flags.leadingPlus then [.code 0x2B] else []

/-- What comes in front of the text.
mirrors printk.cc:758-779 -/
def leadPieces (flags : Flags) : List Piece :=
  (if flags.leftJustify then [] else List.replicate flags.pendingPadding.toNat (.code 0x20)) ++
    (radixPieces flags ++ signPieces flags ++
      List.replicate flags.pendingLeadingZeros.toNat (.code 0x30))

/-- mirrors printk.cc:792-798 -/
def limitedPieces : List UInt8 → Nat → Except Err (List Piece)
  | [], _ => .error .outOfBounds
  | c :: s, max =>
    if c ≠ 0 ∧ 0 < max then do
      let ps ← limitedPieces s (max - 1)
      return .code (Int.bmod c.toNat (2 ^ 8)) :: ps
    else return []

/-- The text itself.
mirrors printk.cc:784-819 -/
def textPieces (flags : Flags) (arg : Arg) : Except Err (List Piece) :=
  match arg with
  | .charPtr s =>
    if flags.limitString then limitedPieces s flags.maxChars.toNat
    else do
      let len ← strlen s
      return [.text (s.take len)]
  | .wcharPtr s => do
    let len ← strlen s
    return (s.take len).map fun c => .code (toInt c.toNat)
  | .character c => return [.code c]
  | _ => return []

/-- mirrors printk.cc:821-825 -/
def trailPieces (flags : Flags) : List Piece :=
  if flags.leftJustify then List.replicate flags.pendingPadding.toNat (.code 0x20) else []

/-- mirrors printk.cc:664-825 -/
def argPieces (flags : Flags) (arg : Arg) : Except Err (List Piece) :=
  if arg = .none then return []
  else do
    let (flags, arg) ← measure flags arg
    let flags := { flags with pendingPadding := settledPadding flags }
    let text ← textPieces flags arg
    return leadPieces flags ++ text ++ trailPieces flags

/-! ## The loop -/

/-- What one turn of the loop does: it stores the count, emits pieces and goes on from a pointer. -/
structure Action where
  store : Option Nat
  pieces : List Piece
  fp : List UInt8
  args : List Nat

/-- A directive, from behind its `%` on. There is nothing to do if it is in error.
mirrors printk.cc:317-825 -/
def directive (m : Mem) (fp : List UInt8) (args : List Nat) : Except Err (Option Action) := do
  let (flags, fp, args) ← parseDirective fp args
  match ← takeArg m (fp.headD 0) flags args with
  | none => return none
  | some (flags, arg, args, store) =>
    let pieces ← argPieces flags arg
    match fp with
    -- `++fp` moves from the terminator to what is behind it
    | [] => throw .outOfBounds
    | _ :: fp => return some ⟨store, pieces, fp, args⟩

/-- At a character that is not the terminator.
mirrors printk.cc:301-825 -/
def action (m : Mem) (fp : List UInt8) (args : List Nat) : Except Err (Option Action) :=
  if fp.headD 0 ≠ 0x25 then
    let literal := fp.takeWhile fun ch => ch ≠ 0 ∧ ch ≠ 0x25
    .ok (some ⟨none, [.span literal], fp.drop literal.length, args⟩)
  else if fp.tail.headD 0 = 0x25 then .ok (some ⟨none, [.code 0x25], fp.tail.tail, args⟩)
  else directive m fp.tail args

inductive Next (σ : Type) where
  | go (fp : List UInt8) (args : List Nat) (st : St σ)
  /-- `RETURN_FORMATTER_ERROR` -/
  | ret (st : St σ)

def turn (fp : List UInt8) (args : List Nat) (st : St σ) : Except Err (Next σ) := do
  match ← action m fp args with
  | none => return .ret st
  | some a => return .go a.fp a.args ((st.store a.store).emitEach emitChars a.pieces)

def loop : Nat → List UInt8 → List Nat → St σ → Except Err (Int × St σ)
  | 0, _, _, _ => .error .fuel
  | fuel + 1, fp, args, st =>
    if fp.headD 0 = 0 then .ok (st.charsWritten, st)
    else do
      match ← turn m emitChars fp args st with
      | .ret st => return (-st.charsWritten - 1, st)
      | .go fp args st => loop fuel fp args st

/-- mirrors printk.cc:290-829 -/
def formatter (format : List UInt8) (args : List Nat) (context : σ) : Except Err (Int × St σ) :=
  loop m emitChars (format.length + 1) format args ⟨0, context, []⟩

/-! ## What stops the loop -/

/-- The errors of the code itself: it does not run on without end. -/
def Ends (x : Err) : Prop := x ≠ .fuel

/-- Every string has its terminator. -/
def Mem.Ended (m : Mem) : Prop := ∀ p, 0 ∈ m.chars p ∧ 0 ∈ m.wchars p

/-- Memory that has only such strings. -/
structure Strings extends Mem where
  ended : toMem.Ended

def Arg.Ended : Arg → Prop
  | .charPtr s => 0 ∈ s
  | .wcharPtr s => 0 ∈ s
  | _ => True

theorem length_parseFlags_le (flags : Flags) (fp : List UInt8) :
    (parseFlags flags fp).2.length ≤ fp.length := by
  induction fp generalizing flags with
  | nil => exact le_refl 0
  | cons ch fp ih =>
    rw [parseFlags]
    repeat' split
    all_goals first | exact le_succ_of_le (ih _) | exact le_rfl

theorem length_parseDigits_le (n : Int) (fp : List UInt8) :
    (parseDigits n fp).2.length ≤ fp.length := by
  induction fp generalizing n with
  | nil => exact le_refl 0
  | cons ch fp ih =>
    rw [parseDigits]
    split
    · exact le_succ_of_le (ih _)
    · exact le_rfl

theorem length_tail_le (fp : List UInt8) : fp.tail.length ≤ fp.length := by
  simp

theorem length_parseInt_le (fp : List UInt8) : (parseInt fp).2.length ≤ fp.length := by
  rw [parseInt]
  split
  · exact (length_parseDigits_le 0 fp.tail).trans (length_tail_le fp)
  · exact length_parseDigits_le 0 fp

theorem length_parseLength_le (fp : List UInt8) : (parseLength fp).2.length ≤ fp.length := by
  have h1 := length_tail_le fp
  have h2 := (length_tail_le fp.tail).trans h1
  simp only [parseLength]
  repeat' split
  all_goals first | exact h1 | exact h2 | exact le_rfl

theorem mem_orNull {α : Type} [Zero α] (flags : Flags) (p : Nat) {s null empty : List α}
    (hs : 0 ∈ s) (hnull : 0 ∈ null) (hempty : 0 ∈ empty) : 0 ∈ orNull flags p s null empty := by
  rw [orNull]
  repeat' split
  all_goals assumption

theorem mem_putDigits (flags : Flags) (value : Nat) {ds : List UInt8} (h : 0 ∈ ds) (room : Nat) :
    0 ∈ (putDigits flags value ds room).2 := by
  induction room generalizing flags value ds with
  | zero => exact h
  | succ room ih =>
    simp only [putDigits]
    split
    · exact mem_cons_of_mem _ h
    · exact ih _ _ (mem_cons_of_mem _ h)

section Ends

variable {E : Err → Prop} (hE : E .noArgument) (flags : Flags) (fp : List UInt8) (args : List Nat)

section

include hE

theorem vaArg_ends : Ensures E (vaArg args) fun _ => True := by
  cases args with
  | nil => exact hE
  | cons w args => exact trivial

theorem parseWidth_ends :
    Ensures E (parseWidth flags fp args) fun r => r.2.1.length ≤ fp.length := by
  rw [parseWidth]
  split
  · exact (vaArg_ends hE args).bind fun _ _ => length_tail_le fp
  split
  · exact length_parseInt_le fp
  · exact le_rfl

theorem parsePrecision_ends :
    Ensures E (parsePrecision flags fp args) fun r => r.2.1.length ≤ fp.length := by
  rw [parsePrecision]
  split
  · exact le_rfl
  split
  · exact (vaArg_ends hE args).bind fun _ _ => (length_tail_le _).trans (length_tail_le fp)
  split
  · exact (length_parseInt_le _).trans (length_tail_le fp)
  · exact length_tail_le fp

theorem parseDirective_ends :
    Ensures E (parseDirective fp args) fun r => r.2.1.length ≤ fp.length := by
  refine (parseWidth_ends hE _ _ args).bind fun r hr => ?_
  refine (parsePrecision_ends hE _ _ _).bind fun r' hr' => ?_
  exact (length_parseLength_le _).trans
    (hr'.trans (hr.trans (length_parseFlags_le emptyFormatterFlags fp)))

/-- What is taken for an argument has its terminator, if all strings have one. -/
theorem takeArg_ends (m : Mem) (ch : UInt8) (flags : Flags) (args : List Nat) :
    Ensures E (takeArg m ch flags args) fun r => ∀ t, r = some t → m.Ended → t.2.1.Ended := by
  simp only [takeArg]
  repeat' split
  all_goals first | refine (vaArg_ends hE args).bind fun r _ => ?_ | skip
  all_goals rintro t ⟨⟩ hm
  all_goals first
    | trivial
    | exact mem_orNull _ _ (hm _).1 (by decide) (by decide)
    | exact mem_orNull _ _ (hm _).2 (by decide) (by decide)

end

theorem limitedPieces_ends (s : List UInt8) (n : Nat) (h : E .outOfBounds ∨ 0 ∈ s) :
    Ensures E (limitedPieces s n) fun _ => True := by
  induction s generalizing n with
  | nil => exact h.resolve_right not_mem_nil
  | cons c s ih =>
    rw [limitedPieces]
    split
    · next hc =>
      refine (ih (n - 1) (h.imp_right fun hmem => ?_)).bind fun _ _ => trivial
      exact (mem_cons.mp hmem).resolve_left hc.1.symm
    · exact trivial

theorem strlen_ends {α : Type} [DecidableEq α] [Zero α] (s : List α)
    (h : E .outOfBounds ∨ 0 ∈ s) : Ensures E (strlen s) fun _ => True := by
  rw [strlen]
  split
  · exact trivial
  · next hno => exact h.resolve_right hno

theorem stringLength_ends (s : List UInt8) (h : E .outOfBounds ∨ 0 ∈ s) :
    Ensures E (stringLength flags s) fun _ => True := by
  rw [stringLength]
  split
  · exact (strlen_ends s h).bind fun _ _ => trivial
  have hchr : Ensures E (memchr s (flags.maxChars % 2 ^ 64).toNat) fun _ => True := by
    rw [memchr]
    split
    · exact trivial
    split
    · exact trivial
    · next hno hlt =>
      rw [take_of_length_le (by omega)] at hno
      exact h.resolve_right hno
  refine hchr.bind fun r _ => ?_
  cases r <;> exact trivial

variable {arg : Arg} (h : E .outOfBounds ∨ arg.Ended)
include h

theorem measure_ends (flags : Flags) :
    Ensures E (measure flags arg) fun r => E .outOfBounds ∨ r.2.Ended := by
  have hdigits (flags : Flags) (n : Nat) : 0 ∈ (integerText flags n).2 :=
    mem_putDigits _ _ (by decide) _
  cases arg with
  | charPtr s => exact (stringLength_ends flags s h).bind fun _ _ => h
  | intptrValue n => exact .inr (hdigits { flags with negative := decide (n < 0) } _)
  | uintptrValue n => exact .inr (hdigits flags n)
  | _ => exact h

theorem textPieces_ends (flags : Flags) : Ensures E (textPieces flags arg) fun _ => True := by
  cases arg with
  | charPtr s =>
    rw [textPieces]
    split
    · exact limitedPieces_ends s _ h
    · exact (strlen_ends s h).bind fun _ _ => trivial
  | wcharPtr s => exact (strlen_ends s h).bind fun _ _ => trivial
  | _ => exact trivial

theorem argPieces_ends (flags : Flags) : Ensures E (argPieces flags arg) fun _ => True := by
  rw [argPieces]
  split
  · exact trivial
  · refine (measure_ends h flags).bind fun r hr => ?_
    exact (textPieces_ends hr _).bind fun _ _ => trivial

end Ends

/-- A directive that runs into the terminator: its type specifier is not there. -/
def Cut (fp : List UInt8) (args : List Nat) : Prop :=
  fp.headD 0 = 0x25 ∧ fp.tail.headD 0 ≠ 0x25 ∧
    ∃ flags args', parseDirective fp.tail args = .ok (flags, [], args')

/-- Every turn goes forward. -/
theorem action_ends {E : Err → Prop} (hE : E .noArgument) (m : Mem) {fp : List UInt8}
    (h : fp.headD 0 ≠ 0) (args : List Nat) (hin : E .outOfBounds ∨ m.Ended ∧ ¬ Cut fp args) :
    Ensures E (action m fp args) fun r => ∀ a, r = some a → a.fp.length < fp.length := by
  cases fp with
  | nil => exact absurd rfl h
  | cons ch fp =>
    rw [action]
    split
    · next hch =>
      rintro a ⟨⟩
      have hpos : 0 < ((ch :: fp).takeWhile fun ch => ch ≠ 0 ∧ ch ≠ 0x25).length := by
        rw [takeWhile_cons_of_pos (by simpa using ⟨h, hch⟩)]
        exact succ_pos _
      simp only [length_drop, length_cons]
      omega
    split
    · rintro a ⟨⟩
      exact lt_succ_of_le (length_tail_le fp)
    · next hch hne =>
      refine (parseDirective_ends hE fp args).eq.bind fun r hr => ?_
      obtain ⟨flags, fp', args'⟩ := r
      refine (takeArg_ends hE m _ flags args').bind fun r' harg => ?_
      cases r' with
      | none => exact nofun
      | some t =>
        refine (argPieces_ends (hin.imp_right fun hin => harg t rfl hin.1) _).bind fun ps _ => ?_
        cases fp' with
        | nil => exact hin.resolve_right fun hin => hin.2 ⟨not_not.mp hch, hne, _, _, hr.1⟩
        | cons ch' fp' =>
          rintro a ⟨⟩
          exact lt_succ_of_lt hr.2

/-- The pointers and the arguments left that the loop comes to. -/
inductive Reaches (m : Mem) : List UInt8 → List Nat → List UInt8 → List Nat → Prop
  | here {fp args} : Reaches m fp args fp args
  | step {fp args fp' args'} {a : Action} (hne : fp.headD 0 ≠ 0)
    (hact : action m fp args = .ok (some a)) (hr : Reaches m a.fp a.args fp' args') :
    Reaches m fp args fp' args'

theorem loop_ends {E : Err → Prop} (hE : E .noArgument) (fuel : Nat) (fp : List UInt8)
    (args : List Nat) (st : St σ) (hfuel : fp.length < fuel)
    (hin : E .outOfBounds ∨ m.Ended ∧ ∀ fp' args', Reaches m fp args fp' args' → ¬ Cut fp' args') :
    Ensures E (loop m emitChars fuel fp args st) fun _ => True := by
  induction fuel generalizing fp args st with
  | zero => cases hfuel
  | succ fuel ih =>
    rw [loop]
    split
    · exact trivial
    · next hne =>
      have hact := action_ends hE m hne args (hin.imp_right fun hin => ⟨hin.1, hin.2 _ _ .here⟩)
      rw [turn, bind_assoc]
      refine hact.eq.bind fun r hr => ?_
      cases r with
      | none => exact trivial
      | some a =>
        have hlt := hr.2 a rfl
        exact ih _ _ _ (by omega) (hin.imp_right fun hin =>
          ⟨hin.1, fun fp' args' hreach => hin.2 fp' args' (.step hne hr.1 hreach)⟩)

theorem formatter_ends (format : List UInt8) (args : List Nat) (context : σ) :
    Ensures Ends (formatter m emitChars format args context) fun _ => True :=
  loop_ends m emitChars nofun _ format args _ (lt_succ_self _) (.inl nofun)

variable {m} {fp fp' : List UInt8} {args args' : List Nat}

/-- Behind a directive that is cut the loop goes on behind the terminator. -/
theorem Cut.action_eq (h : Cut fp args) : action m fp args = .error .outOfBounds := by
  obtain ⟨hhead, hne, flags, args', hparse⟩ := h
  rw [action, if_neg (not_not.mpr hhead), if_neg hne, directive, ok_bind hparse]
  rfl

theorem Reaches.loop_eq (hr : Reaches m fp args fp' args') (hcut : Cut fp' args') (fuel : Nat)
    (st : St σ) (hfuel : fp.length < fuel) :
    loop m emitChars fuel fp args st = .error .outOfBounds := by
  induction hr generalizing fuel st with
  | here =>
    obtain _ | fuel := fuel
    · omega
    rw [loop, if_neg (by rw [hcut.1]; decide), turn, hcut.action_eq]
    rfl
  | step hne hact _ ih =>
    obtain _ | fuel := fuel
    · omega
    have hlt := (action_ends (E := fun _ => True) trivial m hne _ (.inl trivial)).of_ok hact _ rfl
    rw [loop, if_neg hne, turn, hact]
    exact ih hcut fuel _ (by omega)

/-- **The end of the format.** Where all strings have their terminators, the formatter comes to an
end without a read behind the terminator of the format exactly when no directive that it comes to
runs into that terminator. -/
theorem format_inside_iff (m : Strings) (format : List UInt8) (args : List Nat) (context : σ) :
    formatter m.toMem emitChars format args context ≠ .error .fuel ∧
        formatter m.toMem emitChars format args context ≠ .error .outOfBounds ↔
      ∀ fp args', Reaches m.toMem format args fp args' → ¬ Cut fp args' := by
  constructor
  · intro h fp args' hr hcut
    exact h.2 (hr.loop_eq emitChars hcut _ _ (lt_succ_self _))
  · intro h
    have hends := loop_ends (E := (· = .noArgument)) m.toMem emitChars rfl _ format args
      ⟨0, context, []⟩ (lt_succ_self _) (.inr ⟨m.ended, h⟩)
    rw [formatter]
    constructor <;> intro heq <;> rw [heq] at hends <;> cases hends

def emptyStrings : Strings := ⟨⟨fun _ => [0], fun _ => [0]⟩, fun _ => ⟨by simp, by simp⟩⟩

/-- A lone `%`, and `%-5.` without a type specifier. -/
theorem percent_read_on : formatter emptyStrings.toMem collect [0x25] [] [] = .error .outOfBounds ∧
      formatter emptyStrings.toMem collect [0x61, 0x25, 0x2D, 0x35, 0x2E] [] [] =
        .error .outOfBounds :=
  ⟨rfl, rfl⟩

end Dgos.L1.Printk
