import Dgos.L1Data.PrintkDirective

/-!
# Integer conversions

The code keeps the spaces and zeros that are still to be printed as two numbers, and takes one off
for each digit. Both numbers are right for most specifications, but not for all: the zeros for a `0`
flag are as many as if there were no sign or prefix, a prefix does not count against the width,
leading zeros do not count against it on the left, and a `+` is printed for unsigned conversions
too.

Results:
* `printed_eq`, `prescribed_eq`: what the code prints and what the standard prescribes are the same
  digits with different numbers of spaces and zeros around them.
* `codeFrame_eq_iff`: when the numbers are the same.
* `integer_right_iff`: the specifications for which the formatter is right.
-/
namespace Dgos.L1.Printk

open List Option Int Piece Nat Conversion
open Spec (value arg radix digits number precise)

/-! ## What the code prints -/

/-- `down`, once for each digit. -/
def downBy (k : Nat) (n : Int) : Int := if 0 < n then max (n - k) 0 else n

theorem downBy_succ (k : Nat) (n : Int) : downBy k (down n) = downBy (k + 1) n := by
  unfold downBy down
  by_cases h : 0 < n
  · split <;> omega
  · rw [if_neg h, if_neg h, if_neg h]

def Flags.countDigits (flags : Flags) (k : Nat) : Flags :=
  { flags with
    pendingLeadingZeros := downBy k flags.pendingLeadingZeros
    pendingPadding := downBy k flags.pendingPadding }

theorem countDigits_one (flags : Flags) : flags.countDigit = flags.countDigits 1 := by
  have h (n : Int) : down n = downBy 1 n := by
    unfold downBy down
    split <;> omega
  rw [Flags.countDigit, Flags.countDigits, h, h]

theorem countDigits_succ (flags : Flags) (k : Nat) :
    flags.countDigit.countDigits k = flags.countDigits (k + 1) := by
  rw [Flags.countDigits, Flags.countDigits, ← downBy_succ, ← downBy_succ]
  rfl

theorem hexlookup_eq : ∀ upper : Bool, ∀ d < 16,
    formatterHexlookup.getD ((if upper then 16 else 0) + d) 0 =
      (if upper then (digitChar d).toUpper else digitChar d).toUInt8 := by
  decide

theorem putDigits_eq (room : Nat) (flags : Flags) (value : Nat) (ds : List UInt8)
    (hge : 2 ≤ flags.base) (hle : flags.base ≤ 16) (hlt : value < flags.base ^ (room + 1)) :
    putDigits flags value ds (room + 1) =
      (flags.countDigits (digitBytes flags.upper flags.base value).length,
        digitBytes flags.upper flags.base value ++ ds) := by
  induction room generalizing flags value ds with
  | zero =>
    rw [pow_one] at hlt
    have hdigit := hexlookup_eq flags.upper value (by omega)
    rw [putDigits, mod_eq_of_lt hlt, hdigit, if_pos (div_eq_of_lt hlt), countDigits_one,
      digitBytes, toDigits_of_lt_base hlt]
    rfl
  | succ room ih =>
    have hmod : value % flags.base < flags.base := mod_lt _ (by omega)
    have hdigit := hexlookup_eq flags.upper (value % flags.base) (by omega)
    rw [putDigits, hdigit]
    by_cases hsmall : value < flags.base
    · rw [if_pos (div_eq_of_lt hsmall), countDigits_one, digitBytes,
        toDigits_of_lt_base hsmall, mod_eq_of_lt hsmall]
      rfl
    · have hbase : flags.base ≤ value := le_of_not_gt hsmall
      have hlt' : value / flags.base < flags.base ^ (room + 1) := by
        rw [div_lt_iff_lt_mul (by omega)]
        exact hlt
      have hdigits : digitBytes flags.upper flags.base value =
          digitBytes flags.upper flags.base (value / flags.base) ++
            [(if flags.upper then (digitChar (value % flags.base)).toUpper
              else digitChar (value % flags.base)).toUInt8] := by
        rw [digitBytes, toDigits_of_base_le (by omega) hbase, map_append]
        rfl
      rw [if_neg (div_pos hbase (by omega)).ne', ih flags.countDigit _ _ hge hle hlt',
        countDigits_succ, hdigits, length_append, append_assoc]
      rfl

theorem digitChar_bounds : ∀ upper : Bool, ∀ d < 16,
    0x30 ≤ (if upper then (digitChar d).toUpper else digitChar d).toUInt8 := by
  decide

theorem le_of_mem_digitBytes (upper : Bool) {base : Nat} (hge : 2 ≤ base) (hle : base ≤ 16)
    (n : Nat) : ∀ ch ∈ digitBytes upper base n, 0x30 ≤ ch := by
  induction n using Nat.strongRecOn with
  | _ n ih =>
  rcases lt_or_ge n base with h | h
  · rw [digitBytes, toDigits_of_lt_base h]
    exact forall_mem_singleton.2 (digitChar_bounds upper n (by omega))
  · have := mod_lt n (show base > 0 by omega)
    rw [digitBytes, toDigits_of_base_le (by omega) h, map_append]
    exact forall_mem_append.2 ⟨ih (n / base) (div_lt_self (by omega) (by omega)),
      forall_mem_singleton.2 (digitChar_bounds upper (n % base) (by omega))⟩

section Print

variable (s : Spec) (w : Nat)

theorem Conversion.base_bounds (c : Conversion) : 8 ≤ c.base ∧ c.base ≤ 16 := by
  cases c <;> decide

theorem Spec.natAbs_value_lt : (s.value w).natAbs < 2 ^ 64 := by
  obtain ⟨fs, width, prec, len, bits, hbits, c⟩ := s
  have hle : bits = 8 ∨ bits = 16 ∨ bits = 32 ∨ bits = 64 := by
    cases len <;> simp [LengthMod.bits] at hbits <;> omega
  simp only [value]
  split
  · rw [bmod_def]
    rcases hle with rfl | rfl | rfl | rfl <;> omega
  · rcases hle with rfl | rfl | rfl | rfl <;> omega

theorem Spec.value_nonneg (h : s.conversion.isSigned = false) : 0 ≤ s.value w := by
  rw [value, h]
  exact Int.emod_nonneg _ (Int.ne_of_gt (Int.pow_pos (by decide)))

theorem Spec.sign_eq_nil (h : s.conversion.isSigned = false) : s.sign w = [] := by
  have hnonneg := s.value_nonneg w h
  rw [Spec.sign, if_neg (by omega), h, Bool.false_and, if_neg Bool.false_ne_true]

/-- The flags when the digits are there. -/
def Spec.counted : Flags :=
  Flags.countDigits { s.taken with
    negative := decide (s.value w < 0)
    pendingLeadingZeros := s.taken.precision
    pendingPadding := s.taken.minWidth
    hash := if s.value w = 0 then false else s.has .hash } (s.digits w).length

theorem integerText_value :
    integerText { s.taken with negative := decide (s.value w < 0) } (s.value w).natAbs =
      (s.counted w, s.digits w ++ [0]) := by
  obtain ⟨hge, hle⟩ := s.conversion.base_bounds
  have hlt : (s.value w).natAbs < s.conversion.base ^ 31 :=
    lt_of_lt_of_le (lt_of_lt_of_le (s.natAbs_value_lt w) (by decide : 2 ^ 64 ≤ 8 ^ 31))
      (Nat.pow_le_pow_left hge 31)
  have hzero : (s.value w).natAbs = 0 ↔ s.value w = 0 := natAbs_eq_zero
  simp only [integerText, hzero]
  exact putDigits_eq 30 _ _ _ (le_trans (by decide) hge) hle hlt

theorem measure_arg :
    measure s.taken (s.arg w) = .ok (s.counted w, .charPtr (s.digits w ++ [0])) := by
  have htext := integerText_value s w
  have hlt := s.natAbs_value_lt w
  cases hsigned : s.conversion.isSigned with
  | true =>
    have habs : ((if s.value w < 0 then -s.value w else s.value w) % 2 ^ 64).toNat =
        (s.value w).natAbs := by
      split <;> omega
    rw [arg, hsigned, if_pos rfl, measure, habs, htext]
  | false =>
    have hnonneg := s.value_nonneg w hsigned
    have habs : (s.value w).toNat = (s.value w).natAbs := by omega
    have hneg : ({ s.taken with negative := decide (s.value w < 0) } : Flags) = s.taken := by
      rw [decide_eq_false (by omega)]
      rfl
    rw [hneg] at htext
    rw [arg, hsigned, if_neg Bool.false_ne_true, measure, habs, htext]

theorem le_of_mem_digits {ch : UInt8} (h : ch ∈ s.digits w) : 0x30 ≤ ch := by
  obtain ⟨hge, hle⟩ := s.conversion.base_bounds
  exact le_of_mem_digitBytes _ (le_trans (by decide) hge) hle _ _ h

/-- The flags when everything is printed. -/
def Spec.settled : Flags :=
  { s.counted w with pendingPadding := settledPadding (s.counted w) }

/-- All that is emitted for the argument. -/
def Spec.pieces : List Piece :=
  leadPieces (s.settled w) ++ [.text (s.digits w)] ++ trailPieces (s.settled w)

theorem argPieces_arg : argPieces s.taken (s.arg w) = .ok (s.pieces w) := by
  have hne : s.arg w ≠ .none := by
    rw [arg]
    split <;> simp
  have htake : (s.digits w ++ [0]).takeWhile (· ≠ 0) = s.digits w := by
    rw [takeWhile_append_of_pos]
    · simp
    · intro ch hch
      exact decide_eq_true fun h => absurd (le_of_mem_digits s w (h ▸ hch)) (by decide)
  have hlen : strlen (s.digits w ++ [0]) = .ok (s.digits w).length := by
    rw [strlen, if_pos (by simp), htake]
  have htext : textPieces (s.settled w) (.charPtr (s.digits w ++ [0])) =
      .ok [.text (s.digits w)] := by
    rw [textPieces, ok_bind hlen, take_left]
    rfl
  rw [argPieces, if_neg hne, ok_bind (measure_arg s w)]
  exact ok_bind htext _

end Print

/-! ## Spaces and zeros -/

/-- The numbers of spaces and zeros around the digits. -/
structure Frame where
  before : Nat
  zeros : Nat
  after : Nat

open Dgos.L1.Printk.Frame

section Frame

variable {minus zero : Bool} {W P : Int} {D sg rx oc : Nat}

theorem downBy_eq (k : Nat) (n : Int) : downBy k n = if n < 0 then n else max (n - k) 0 := by
  unfold downBy
  split <;> omega

/-- The padding with room for the sign. -/
def signedPadding (W : Int) (D sg : Nat) : Int :=
  if sg ≠ 0 then down (downBy D W) else downBy D W

theorem signedPadding_eq (hsg : sg ≤ 1) :
    signedPadding W D sg = if W < 0 then W else max (W - D - sg) 0 := by
  unfold signedPadding down
  rw [downBy_eq]
  split <;> first | rfl | (split <;> omega)

def codePadding (minus : Bool) (W P : Int) (D sg : Nat) : Int :=
  if signedPadding W D sg ≠ 0 ∧ !minus then
    if downBy D P < signedPadding W D sg then toInt (signedPadding W D sg - downBy D P) else 0
  else signedPadding W D sg

/-- What the code arrives at. -/
def codeFrame (minus : Bool) (W P : Int) (D sg oc : Nat) : Frame :=
  let pad := (codePadding minus W P D sg).toNat
  ⟨if minus then 0 else pad, oc + (downBy D P).toNat, if minus then pad else 0⟩

def stdFrame (minus zero : Bool) (W : Int) (given : Option Nat) (D sg rx oc : Nat) : Frame :=
  let n0 := max (given.getD 1 - D) oc
  let missing := W.natAbs - (sg + rx + n0 + D)
  if minus ∨ W < 0 then ⟨0, n0, missing⟩
  else if zero ∧ given = none then ⟨0, missing + n0, 0⟩
  else ⟨missing, n0, 0⟩

structure Sizes (W : Int) (D sg rx oc : Nat) : Prop where
  width : -2 ^ 31 ≤ W ∧ W < 2 ^ 31
  digits : 0 < D
  sign : sg ≤ 1
  octal : oc ≤ 1
  hex : rx = 0 ∨ sg = 0 ∧ oc = 0
  octal' : oc = 0 ∨ sg = 0

section

variable (h : Sizes W D sg rx oc)
include h

theorem codeFrame_left : codeFrame true W P D sg oc =
      ⟨0, oc + (if P < 0 then 0 else (P - D).toNat), if W < 0 then 0 else (W - D - sg).toNat⟩ := by
  have hpad : codePadding true W P D sg = if W < 0 then W else max (W - D - sg) 0 := by
    rw [codePadding, if_neg (by simp), signedPadding_eq h.sign]
  simp only [codeFrame, hpad, downBy_eq, if_true, mk.injEq, true_and]
  constructor <;> split <;> omega

theorem codeFrame_right (hP : 0 ≤ P) (hP' : P < 2 ^ 31) : codeFrame false W P D sg oc =
      ⟨if W < 0 then 0 else (W - sg - max (D : Int) P).toNat, oc + (P - D).toNat, 0⟩ := by
  obtain ⟨⟨hW1, hW2⟩, hD, hsg, -⟩ := h
  have hpad : (codePadding false W P D sg).toNat =
      if W < 0 then 0 else (W - sg - max (D : Int) P).toNat := by
    rw [codePadding, signedPadding_eq hsg, downBy_eq, if_neg (by omega : ¬ P < 0)]
    by_cases hW : W < 0
    · simp only [if_pos hW]
      rw [if_pos ⟨by omega, rfl⟩, if_neg (by omega)]
      rfl
    · simp only [if_neg hW]
      by_cases hzero : max (W - D - sg) 0 = 0
      · omega
      · rw [if_pos ⟨hzero, rfl⟩]
        split
        · rw [toInt_of_lt] <;> omega
        · omega
  simp only [codeFrame, hpad, downBy_eq, if_neg (by omega : ¬ P < 0), mk.injEq,
    Bool.false_eq_true, if_false, true_and, and_true]
  omega

/-- With a negative precision the difference may wrap around. -/
theorem codeFrame_negative (hP : P < 0) (hP' : -2 ^ 31 ≤ P) : codeFrame false W P D sg oc =
      ⟨if W < 0 then (W - P).toNat
        else if W ≤ D + sg then 0
        else if W - D - sg - P < 2 ^ 31 then (W - D - sg - P).toNat else 0, oc, 0⟩ := by
  obtain ⟨⟨hW1, hW2⟩, hD, hsg, -⟩ := h
  have hpad : (codePadding false W P D sg).toNat = if W < 0 then (W - P).toNat
        else if W ≤ D + sg then 0
        else if W - D - sg - P < 2 ^ 31 then (W - D - sg - P).toNat else 0 := by
    rw [codePadding, signedPadding_eq hsg, downBy_eq, if_pos hP]
    by_cases hW : W < 0
    · rw [if_pos ⟨by omega, rfl⟩]
      split
      · rw [toInt_of_lt] <;> omega
      · omega
    · simp only [if_neg hW]
      by_cases hle : W ≤ D + sg
      · rw [if_pos hle]
        omega
      · rw [if_pos ⟨by omega, rfl⟩, if_pos (by omega), if_neg hle]
        split
        · rw [toInt_of_lt] <;> omega
        · rw [toInt, bmod_def]
          omega
  simp only [codeFrame, hpad, downBy_eq, if_pos hP, mk.injEq,
    Bool.false_eq_true, if_false, true_and, and_true]
  omega

theorem fits_plain (given : Option Nat) (hg : given.getD 0 = 0) :
    codeFrame minus W (if zero then W else 0) D sg oc = stdFrame minus zero W given D sg rx oc ↔
      if W < 0 then -W ≤ D + sg + (rx + oc : Nat)
      else W ≤ D ∨ rx + oc = 0 ∧ (zero = false ∨ given = none ∧ minus = false ∧ sg = 0) := by
  have hs := h
  obtain ⟨⟨hW1, hW2⟩, hD, hsg, hoc, hhex, hoct⟩ := h
  have hmax : max (given.getD 1 - D) oc = oc := by
    cases given with
    | none => simp only [getD_none]; omega
    | some n => simp only [getD_some] at hg ⊢; omega
  by_cases hW : W < 0
  · cases minus
    · cases zero
      · rw [codeFrame_right hs (by simp) (by simp)]
        simp [stdFrame, hmax, hW]
        omega
      · rw [codeFrame_negative hs (by simpa using hW) (by simpa using hW1)]
        simp [stdFrame, hmax, hW]
        omega
    · rw [codeFrame_left hs]
      cases zero <;> simp [stdFrame, hmax, hW] <;> omega
  · have hW' : 0 ≤ W := by omega
    cases minus
    · cases zero
      · rw [codeFrame_right hs (by simp) (by simp)]
        simp [stdFrame, hmax, hW]
        omega
      · rw [codeFrame_right hs (by simpa using hW') (by simpa using hW2)]
        by_cases hn : given = none <;> simp [stdFrame, hmax, hW, hn] <;> omega
    · rw [codeFrame_left hs]
      cases zero <;> simp [stdFrame, hmax, hW] <;> omega

theorem fits_given (hP : 0 ≤ P) (hP' : P < 2 ^ 31) :
    codeFrame minus W P D sg oc = stdFrame minus zero W (some P.toNat) D sg rx oc ↔
      (oc = 0 ∨ P ≤ D) ∧
        if W < 0 then -W ≤ sg + (rx + oc : Nat) + max (D : Int) P
        else if minus then W ≤ D + sg ∨ rx + oc = 0 ∧ P ≤ D
        else W ≤ sg + max (D : Int) P ∨ rx + oc = 0 := by
  cases minus
  · rw [codeFrame_right h hP hP']
    by_cases hW : W < 0 <;> simp [stdFrame, hW] <;> omega
  · rw [codeFrame_left h, if_neg (by omega)]
    by_cases hW : W < 0 <;> simp [stdFrame, hW] <;> omega

theorem fits_negative (hP : P < 0) (hP' : -2 ^ 31 ≤ P) :
    codeFrame minus W P D sg oc = stdFrame minus zero W none D sg rx oc ↔
      if W < 0 then -W ≤ D + sg + (rx + oc : Nat) ∧ (minus ∨ W ≤ P)
      else W ≤ D + sg ∨
        if minus then rx + oc = 0 else W ≤ D + (rx + oc : Nat) ∧ D + 2 ^ 31 ≤ W - P := by
  have hs := h
  obtain ⟨⟨hW1, hW2⟩, hD, hsg, hoc, hhex, hoct⟩ := h
  cases minus
  · rw [codeFrame_negative hs hP hP']
    by_cases hW : W < 0
    · cases zero <;> simp [stdFrame, hW] <;> omega
    by_cases hle : W ≤ D + sg
    · cases zero <;> simp [stdFrame, hW, hle] <;> omega
    by_cases hlt : W - D - sg - P < 2 ^ 31
    · rw [if_neg hle, if_pos hlt]
      cases zero <;> simp [stdFrame, hW] <;> omega
    · rw [if_neg hlt]
      cases zero <;> simp [stdFrame, hW] <;> omega
  · rw [codeFrame_left hs]
    by_cases hW : W < 0 <;> cases zero <;> simp [stdFrame, hW, hP] <;> omega

end

end Frame

/-! ## The text in its frame -/

section Framed

/-- The digits behind a sign or a prefix, in their frame. -/
def Frame.around (f : Frame) (head digits : List UInt8) : List UInt8 :=
  List.replicate f.before 0x20 ++
    (head ++ (List.replicate f.zeros 0x30 ++ digits) ++ List.replicate f.after 0x20)

variable {head digits : List UInt8}

theorem takeWhile_around (f : Frame) (hmid : ∀ ch ∈ head ++ digits, ch ≠ 0x20) (hne : digits ≠ []) :
    (f.around head digits).takeWhile (· = 0x20) = List.replicate f.before 0x20 := by
  have hmem : ∀ ch ∈ head ++ (replicate f.zeros 0x30 ++ digits), ch ≠ 0x20 := by
    rw [forall_mem_append] at hmid
    simp only [forall_mem_append]
    exact ⟨hmid.1, fun ch h => eq_of_mem_replicate h ▸ by decide, hmid.2⟩
  have hcons : head ++ (replicate f.zeros 0x30 ++ digits) ≠ [] := by simp [hne]
  obtain ⟨ch, l, heq⟩ := exists_cons_of_ne_nil hcons
  have hch := hmem ch (heq ▸ mem_cons_self)
  rw [around, heq, takeWhile_append_of_pos, cons_append,
    takeWhile_cons_of_neg (by simpa using hch), append_nil]
  intro c hc
  simpa using eq_of_mem_replicate hc

theorem count_around (f : Frame) (hmid : ∀ ch ∈ head ++ digits, ch ≠ 0x20) :
    (f.around head digits).count 0x20 = f.before + f.after := by
  have hhead : head.count 0x20 = 0 :=
    count_eq_zero.mpr fun h => hmid _ (mem_append_left digits h) rfl
  have hdigits : digits.count 0x20 = 0 :=
    count_eq_zero.mpr fun h => hmid _ (mem_append_right head h) rfl
  simp [around, count_append, count_replicate, hhead, hdigits]

theorem around_inj {f f' : Frame} (hmid : ∀ ch ∈ head ++ digits, ch ≠ 0x20) (hne : digits ≠ []) :
    f.around head digits = f'.around head digits ↔ f = f' := by
  constructor
  · intro h
    have hbefore := congrArg length ((takeWhile_around f hmid hne).symm.trans
      ((congrArg _ h).trans (takeWhile_around f' hmid hne)))
    have hcount := (count_around f hmid).symm.trans ((congrArg _ h).trans (count_around f' hmid))
    have hlength := congrArg length h
    simp only [around, length_append, length_replicate] at hbefore hlength
    obtain ⟨a, z, b⟩ := f
    obtain ⟨a', z', b'⟩ := f'
    simp only at hbefore hcount hlength
    simp only [mk.injEq]
    omega
  · rintro rfl
    rfl

end Framed

section Agree

variable (s : Spec) (w : Nat) {ch : UInt8}

/-- The zero that the alternative form of an octal number needs. -/
def Spec.octal : Nat := if s.conversion.base = 8 ∧ s.has .hash ∧ s.value w ≠ 0 then 1 else 0

theorem bytes_replicate (n : Nat) {ch : Int} {b : UInt8} (h : (code ch).bytes = [b]) :
    (List.replicate n (code ch)).flatMap bytes = List.replicate n b := by
  induction n with
  | zero => rfl
  | succ n ih => rw [replicate_succ, flatMap_cons, ih, h]; rfl

/-- Everything the conversion prints. -/
def Spec.printed : List UInt8 := (s.pieces w).flatMap Piece.bytes

theorem Conversion.base_of_isSigned {c : Conversion} (h : c.isSigned = true) : c.base = 10 := by
  cases c <;> first | rfl | cases h

theorem signPieces_settled : signPieces (s.settled w) =
    if decide (s.value w < 0) then [.code 0x2D] else if s.has .plus then [.code 0x2B] else [] := rfl

section Plus

variable (hplus : s.has .plus = true → s.conversion.isSigned = true)
include hplus

/-- Unsigned conversions have no sign, signed ones no prefix. -/
theorem sign_cases : s.conversion.base = 10 ∧ s.radix w = [] ∧ s.octal w = 0 ∨
      s.sign w = [] ∧ s.has .plus = false ∧ decide (s.value w < 0) = false := by
  cases hsigned : s.conversion.isSigned with
  | true =>
    have hbase := base_of_isSigned hsigned
    exact .inl ⟨hbase, by simp [radix, hbase], by simp [Spec.octal, hbase]⟩
  | false =>
    have hnonneg := s.value_nonneg w hsigned
    have hno : s.has .plus = false := by
      rw [hsigned] at hplus
      simpa using hplus
    exact .inr ⟨s.sign_eq_nil w hsigned, hno, decide_eq_false (by omega)⟩

theorem sign_eq : (s.sign w = [] ∧ (decide (s.value w < 0) || s.has .plus) = false) ∨
      (∃ ch, s.sign w = [ch] ∧ (decide (s.value w < 0) || s.has .plus) = true ∧
        ch = if s.value w < 0 then 0x2D else 0x2B) := by
  rw [Spec.sign]
  by_cases hneg : s.value w < 0
  · exact .inr ⟨0x2D, by simp [hneg]⟩
  · cases hp : s.has .plus with
    | true => exact .inr ⟨0x2B, by simp [hneg, hplus hp]⟩
    | false => exact .inl (by simp [hneg])

theorem pendingPadding_settled :
    (s.settled w).pendingPadding = codePadding (s.has .minus) s.width.value s.taken.precision
      (s.digits w).length (s.sign w).length := by
  have hfields : ((s.counted w).negative || (s.counted w).leadingPlus) =
      (decide (s.value w < 0) || s.has .plus) := rfl
  have hsign : (if (decide (s.value w < 0) || s.has .plus) = true
        then down (s.counted w).pendingPadding else (s.counted w).pendingPadding) =
      signedPadding s.width.value (s.digits w).length (s.sign w).length := by
    rcases sign_eq s w hplus with ⟨hsign, hno⟩ | ⟨ch, hsign, hyes, -⟩
    · rw [hsign, hno]
      rfl
    · rw [hsign, hyes]
      rfl
  rw [Spec.settled, settledPadding, hfields]
  simp only [hsign]
  rfl

/-- What comes between the spaces and the zeros; an octal prefix is a zero. -/
theorem head_bytes : (radixPieces (s.settled w)).flatMap bytes ++
      (signPieces (s.settled w)).flatMap bytes =
        s.sign w ++ s.radix w ++ List.replicate (s.octal w) 0x30 := by
  have hradix : radixPieces (s.settled w) =
      if (if s.value w = 0 then false else s.has .hash) && s.conversion.base == 16 then
        [.span [0x30, if s.conversion.isUpper then 0x58 else 0x78]]
      else if (if s.value w = 0 then false else s.has .hash) && s.conversion.base == 8 then
        [.code 0x30] else [] := rfl
  have hsign := signPieces_settled s w
  have hcodes : (code 0x2D).bytes = [0x2D] ∧ (code 0x2B).bytes = [0x2B] ∧
      (code 0x30).bytes = [0x30] := by decide
  rcases sign_cases s w hplus with ⟨hten, hno, hoctal⟩ | ⟨hno, hplus', hpos⟩
  · rw [hradix, hten, hno, hoctal, hsign]
    rcases sign_eq s w hplus with ⟨hs, hfalse⟩ | ⟨ch, hs, htrue, rfl⟩
    · rw [Bool.or_eq_false_iff] at hfalse
      simp [hs, hfalse]
    · rw [hs]
      by_cases hneg : s.value w < 0
      · simp [hneg, hcodes]
      · have hp : s.has .plus = true := by simpa [hneg] using htrue
        simp [hneg, hp, hcodes]
  · rw [hsign, hplus', hpos, hno, hradix, radix, Spec.octal]
    by_cases hzero : s.value w = 0
    · simp [hzero]
    · cases hh : s.has .hash with
      | false => simp
      | true =>
        have hspan (l : List UInt8) : (span l).bytes = l := rfl
        cases s.conversion <;> simp [base, hzero, hcodes, hspan]

theorem printed_eq :
    s.printed w = (codeFrame (s.has .minus) s.width.value s.taken.precision (s.digits w).length
      (s.sign w).length (s.octal w)).around (s.sign w ++ s.radix w) (s.digits w) := by
  have hspace : (code 0x20).bytes = [0x20] := by decide
  have hzero : (code 0x30).bytes = [0x30] := by decide
  have hzeros : (s.settled w).pendingLeadingZeros =
    downBy (s.digits w).length s.taken.precision := rfl
  have hleft : (s.settled w).leftJustify = s.has .minus := rfl
  rw [Spec.printed, Spec.pieces, leadPieces, trailPieces, hzeros, hleft, pendingPadding_settled s w hplus]
  have htext : ([text (s.digits w)]).flatMap bytes = s.digits w := by
    rw [flatMap_cons, flatMap_nil, append_nil]
    rfl
  simp only [flatMap_append, bytes_replicate _ hzero, head_bytes s w hplus, codeFrame,
    around, replicate_add, htext]
  cases s.has .minus with
  | true => simp [bytes_replicate _ hspace]
  | false => simp [bytes_replicate _ hspace]

end Plus

/-- The standard shows a digit. -/
def Spec.Shown : Prop :=
  s.value w = 0 → s.givenPrecision = some 0 → s.conversion.base = 8 ∧ s.has .hash = true

theorem digits_of_zero (h : s.value w = 0) : s.digits w = [0x30] := by
  have hpos : 0 < s.conversion.base := lt_of_lt_of_le (by decide) s.conversion.base_bounds.1
  rw [Spec.digits, h, natAbs_zero, digitBytes, toDigits_of_lt_base hpos]
  cases s.conversion.isUpper <;> decide

theorem digits_head (h : s.value w ≠ 0) : (s.digits w).head? ≠ some 0x30 := by
  obtain ⟨hge, hle⟩ := s.conversion.base_bounds
  obtain ⟨ch, l, heq, hne⟩ := digitBytes_head_ne s.conversion.isUpper
    (le_trans (by decide) hge) hle (s.value w).natAbs (natAbs_ne_zero.mpr h)
  rw [Spec.digits, heq]
  exact fun h => hne (some.inj h)

theorem digits_ne_nil : s.digits w ≠ [] := by
  obtain ⟨ch, l, heq⟩ := digitBytes_head s.conversion.isUpper s.conversion.base (s.value w).natAbs
  rw [Spec.digits, heq]
  exact cons_ne_nil ch l

theorem number_eq (hshown : s.Shown w) :
    s.number w = List.replicate (max (s.givenPrecision.getD 1 - (s.digits w).length) (s.octal w))
      0x30 ++ s.digits w := by
  by_cases hempty : s.value w = 0 ∧ s.givenPrecision = some 0
  · obtain ⟨hzero, hnone⟩ := hempty
    obtain ⟨hbase, hhash⟩ := hshown hzero hnone
    have hdigits := digits_of_zero s w hzero
    simp [number, precise, Spec.octal, hzero, hnone, hbase, hhash, hdigits]
  have hprecise : s.precise w =
      replicate (s.givenPrecision.getD 1 - (s.digits w).length) 0x30 ++ s.digits w :=
    if_neg hempty
  rw [number, hprecise, Spec.octal]
  generalize s.givenPrecision.getD 1 - (s.digits w).length = k
  by_cases hoct : s.conversion.base = 8 ∧ s.has .hash = true
  swap
  · rw [if_neg (fun h => hoct ⟨h.1, h.2.1⟩), if_neg (fun h => hoct ⟨h.1, h.2.1⟩), Nat.max_zero]
  obtain ⟨hbase, hhash⟩ := hoct
  cases k with
  | zero =>
    by_cases hzero : s.value w = 0
    · rw [if_neg (fun h => h.2.2 (by rw [digits_of_zero s w hzero]; rfl)),
        if_neg (fun h => h.2.2 hzero)]
      rfl
    · rw [if_pos ⟨hbase, hhash, digits_head s w hzero⟩, if_pos ⟨hbase, hhash, hzero⟩]
      rfl
  | succ k =>
    have hmax (b : Prop) [Decidable b] : max (k + 1) (if b then 1 else 0) = k + 1 := by
      split <;> omega
    rw [if_neg (fun h => h.2.2 rfl), hmax]

theorem prescribed_eq (hshown : s.Shown w) :
    s.prescribed w = (stdFrame (s.has .minus) (s.has .zero) s.width.value s.givenPrecision
      (s.digits w).length (s.sign w).length (s.radix w).length (s.octal w)).around
        (s.sign w ++ s.radix w) (s.digits w) := by
  have hnumber := number_eq s w hshown
  have hlen : (s.sign w ++ (s.radix w ++ s.number w)).length = (s.sign w).length +
      (s.radix w).length + max (s.givenPrecision.getD 1 - (s.digits w).length) (s.octal w) +
        (s.digits w).length := by
    rw [hnumber]
    simp only [length_append, length_replicate]
    omega
  have hleft : s.left = true ↔ s.has .minus = true ∨ s.width.value < 0 := by
    rw [Spec.left, decide_eq_true_iff]
  simp only [Spec.prescribed, hlen, hleft, stdFrame]
  split
  · simp [around, hnumber]
  · split
    · simp only [around, hnumber, replicate_add, append_assoc, replicate_zero,
        nil_append, append_nil]
    · simp [around, hnumber]

theorem Width.value_bounds (w : Width) : -2 ^ 31 ≤ w.value ∧ w.value < 2 ^ 31 := by
  cases w with
  | absent => exact ⟨by decide, by decide⟩
  | number n pos lt =>
    rw [Width.value]
    omega
  | star w => exact toInt_bounds w

theorem sizes : Sizes s.width.value (s.digits w).length (s.sign w).length (s.radix w).length
    (s.octal w) := by
  have hunsigned (h : s.conversion.base ≠ 10) : s.sign w = [] := by
    refine s.sign_eq_nil w ?_
    rw [← Bool.not_eq_true]
    exact fun hyes => h (base_of_isSigned hyes)
  refine ⟨s.width.value_bounds, length_pos_of_ne_nil (digits_ne_nil s w), ?_, ?_, ?_, ?_⟩
  · rw [Spec.sign]
    split
    · exact le_refl 1
    · split <;> decide
  · rw [Spec.octal]
    split <;> decide
  · by_cases hbase : s.conversion.base = 16
    · refine .inr ⟨by rw [hunsigned (by omega)]; rfl, ?_⟩
      rw [Spec.octal, if_neg (by omega)]
    · left
      rw [radix, if_neg (fun h => hbase h.1)]
      rfl
  · by_cases hbase : s.conversion.base = 8
    · exact .inr (by rw [hunsigned (by omega)]; rfl)
    · exact .inl (by rw [Spec.octal, if_neg (fun h => hbase h.1)])

/-! ## When the code is right -/

/-- The same with a precision of `p`. -/
def Spec.FitsPrecision (p : Int) : Prop :=
  let width := s.width.value
  let d := (s.digits w).length
  let sg := (s.sign w).length
  let pre := (s.radix w).length + s.octal w
  (s.octal w = 0 ∨ p ≤ d) ∧
    if width < 0 then -width ≤ sg + pre + max (d : Int) p
    else if s.has .minus then width ≤ d + sg ∨ pre = 0 ∧ p ≤ d
    else width ≤ sg + max (d : Int) p ∨ pre = 0

/-- The width is one for which the spaces and the zeros come out right: `d` digits, `sg` characters
of sign, `pre` of prefix. -/
def Spec.Fits : Prop :=
  let width := s.width.value
  let d := (s.digits w).length
  let sg := (s.sign w).length
  let pre := (s.radix w).length + s.octal w
  match s.precision with
  | .absent =>
    if width < 0 then -width ≤ d + sg + pre
    else width ≤ d ∨ pre = 0 ∧ (s.has .zero = false ∨ s.has .minus = false ∧ sg = 0)
  | .period =>
    if width < 0 then -width ≤ d + sg + pre else width ≤ d ∨ pre = 0 ∧ s.has .zero = false
  | .number p _ => s.FitsPrecision w p
  | .star p =>
    if 0 ≤ toInt p then s.FitsPrecision w (toInt p)
    else if width < 0 then -width ≤ d + sg + pre ∧ (s.has .minus ∨ width ≤ toInt p)
    else width ≤ d + sg ∨
      if s.has .minus then pre = 0 else width ≤ d + pre ∧ d + 2 ^ 31 ≤ width - toInt p

/-- The specifications and values that the code prints as the standard prescribes: a `+` flag only
for signed conversions, no zero that should not be shown, and a width that fits. -/
structure Spec.Right : Prop where
  plus : s.has .plus = true → s.conversion.isSigned = true
  shown : s.Shown w
  fits : s.Fits w

theorem codeFrame_eq_iff :
    codeFrame (s.has .minus) s.width.value s.taken.precision (s.digits w).length
        (s.sign w).length (s.octal w) =
      stdFrame (s.has .minus) (s.has .zero) s.width.value s.givenPrecision (s.digits w).length
        (s.sign w).length (s.radix w).length (s.octal w) ↔ s.Fits w := by
  have hs := sizes s w
  have hprec : s.taken.precision =
    if !s.precision.given && s.has .zero then s.width.value else s.precision.value := rfl
  rw [hprec, Spec.Fits, Spec.givenPrecision]
  cases s.precision with
  | absent => exact (fits_plain hs none rfl).trans (by simp [Precision.given])
  | period => exact (fits_plain hs (some 0) rfl).trans (by simp [Precision.given])
  | number n lt => exact fits_given (P := n) hs (natCast_nonneg n) (by omega)
  | star p =>
    obtain ⟨hge, hlt⟩ := toInt_bounds p
    simp only [Precision.given, Precision.value, Bool.not_true, Bool.false_and,
      Bool.false_eq_true, if_false]
    generalize toInt p = q at hge hlt
    by_cases hneg : q < 0
    · simp only [if_pos hneg, if_neg (by omega : ¬ 0 ≤ q)]
      exact fits_negative hs hneg hge
    · simp only [if_neg hneg, if_pos (by omega : 0 ≤ q)]
      exact fits_given hs (by omega) hlt

theorem mem_prescribed (h : ch ∈ s.prescribed w) :
    ch = 0x20 ∨ ch ∈ s.sign w ∨ ch ∈ s.radix w ∨ ch ∈ s.number w ∨
      ch = 0x30 ∧ s.givenPrecision = none := by
  simp only [Spec.prescribed] at h
  split_ifs at h <;> simp only [mem_append, mem_replicate] at h <;> tauto

theorem le_of_mem_number : ∀ ch ∈ s.number w, 0x30 ≤ ch := by
  have hprecise : ∀ ch ∈ s.precise w, 0x30 ≤ ch := by
    rw [precise]
    split
    · exact nofun
    · exact forall_mem_append.2 ⟨fun ch h => eq_of_mem_replicate h ▸ UInt8.le_refl _,
        fun ch => le_of_mem_digits s w⟩
  rw [number]
  split
  · exact forall_mem_cons.2 ⟨by decide, hprecise⟩
  · exact hprecise

theorem le_of_mem_radix : ∀ ch ∈ s.radix w, 0x30 ≤ ch := by
  rw [radix]
  split
  · exact forall_mem_cons.2 ⟨by decide, forall_mem_singleton.2 (by split <;> decide)⟩
  · exact nofun

theorem mem_sign (h : ch ∈ s.sign w) : ch = 0x2D ∨ ch = 0x2B := by
  rw [Spec.sign] at h
  grind

/-- The code prints a sign for unsigned conversions too. -/
theorem plus_of_printed (h : s.printed w = s.prescribed w) (hplus : s.has .plus = true) :
    s.conversion.isSigned = true := by
  by_contra hno
  rw [Bool.not_eq_true] at hno
  have hnonneg := s.value_nonneg w hno
  have hneg : decide (s.value w < 0) = false := decide_eq_false (by omega)
  have hpieces : signPieces (s.settled w) = [.code 0x2B] := by
    rw [signPieces_settled, hneg, hplus]
    rfl
  have hmem : (0x2B : UInt8) ∈ s.printed w := by
    rw [Spec.printed, mem_flatMap]
    refine ⟨.code 0x2B, ?_, by decide⟩
    simp [Spec.pieces, leadPieces, hpieces]
  rw [h] at hmem
  have hsign := s.sign_eq_nil w hno
  have hge : ¬ (0x30 : UInt8) ≤ 0x2B := by decide
  rcases mem_prescribed s w hmem with h | h | h | h | h
  · cases h
  · rw [hsign] at h
    cases h
  · exact hge (le_of_mem_radix s w _ h)
  · exact hge (le_of_mem_number s w _ h)
  · cases h.1

/-- The code shows at least one digit. -/
theorem shown_of_printed (h : s.printed w = s.prescribed w) : s.Shown w := by
  intro hzero hnone
  by_contra hno
  have hmem : (0x30 : UInt8) ∈ s.printed w := by
    rw [Spec.printed, mem_flatMap]
    refine ⟨.text (s.digits w), by simp [Spec.pieces], ?_⟩
    rw [digits_of_zero s w hzero]
    decide
  rw [h] at hmem
  have hprecise : s.precise w = [] := if_pos ⟨hzero, hnone⟩
  have hnumber : s.number w = [] := by
    rw [number, hprecise, if_neg fun h => hno ⟨h.1, h.2.1⟩]
  have hradix : s.radix w = [] := by
    rw [radix, if_neg fun h => h.2.2 hzero]
  rcases mem_prescribed s w hmem with h | h | h | h | h
  · cases h
  · exact absurd (mem_sign s w h) (by decide)
  · rw [hradix] at h
    cases h
  · rw [hnumber] at h
    cases h
  · rw [hnone] at h
    cases h.2

theorem printed_eq_iff : s.printed w = s.prescribed w ↔ s.Right w := by
  have hmid : ∀ ch ∈ s.sign w ++ s.radix w ++ s.digits w, ch ≠ 0x20 := by
    have hge : ¬ (0x30 : UInt8) ≤ 0x20 := by decide
    simp only [forall_mem_append]
    refine ⟨⟨?_, ?_⟩, ?_⟩ <;> rintro ch h rfl
    · exact absurd (mem_sign s w h) (by decide)
    · exact hge (le_of_mem_radix s w _ h)
    · exact hge (le_of_mem_digits s w h)
  have hagree (hplus : s.has .plus = true → s.conversion.isSigned = true) (hshown : s.Shown w) :
      s.printed w = s.prescribed w ↔ s.Fits w := by
    rw [printed_eq s w hplus, prescribed_eq s w hshown, around_inj hmid (digits_ne_nil s w),
      codeFrame_eq_iff]
  constructor
  · intro h
    have hplus := plus_of_printed s w h
    have hshown := shown_of_printed s w h
    exact ⟨hplus, hshown, (hagree hplus hshown).mp h⟩
  · intro h
    exact (hagree h.plus h.shown).mpr h.fits

end Agree

/-! ## A directive in a format -/

/-- The callback gets every byte and counts it. -/
theorem emitEach_collect (ps : List Piece) (h : ∀ p ∈ ps, p.bytes.length < 2 ^ 31)
    (st : St (List UInt8)) : st.emitEach collect ps =
      { st with
        charsWritten := st.charsWritten + (ps.flatMap bytes).length
        context := st.context ++ ps.flatMap bytes } := by
  induction ps generalizing st with
  | nil => simp [St.emitEach]
  | cons p ps ih =>
    have hp := h p mem_cons_self
    have hstep : st.emitEach collect (p :: ps) = (st.emit collect p).emitEach collect ps := rfl
    rw [hstep, ih fun q hq => h q (mem_cons_of_mem p hq)]
    simp [St.emit, collect, toInt_of_lt (by omega : -2 ^ 31 ≤ (p.bytes.length : Int)) (by omega),
      Int.add_assoc]

section Directive

variable (s : Spec) (w : Nat)

theorem length_digits_le : (s.digits w).length ≤ 31 := by
  obtain ⟨hge, -⟩ := s.conversion.base_bounds
  have hlt := lt_of_lt_of_le (s.natAbs_value_lt w) (by decide : 2 ^ 64 ≤ 8 ^ 31)
  rw [Spec.digits, digitBytes, length_map, length_toDigits_le_iff (by omega) (by decide)]
  exact lt_of_lt_of_le hlt (Nat.pow_le_pow_left hge 31)

theorem mem_pieces {p : Piece} (hp : p ∈ s.pieces w) :
    (∃ ch, p = .code ch) ∨ (∃ x, p = .span [0x30, x]) ∨ p = .text (s.digits w) := by
  simp only [Spec.pieces, leadPieces, trailPieces, radixPieces, signPieces, mem_append] at hp
  grind

theorem length_bytes_lt (p : Piece) (hp : p ∈ s.pieces w) : p.bytes.length < 2 ^ 31 := by
  rcases mem_pieces s w hp with ⟨ch, rfl⟩ | ⟨x, rfl⟩ | rfl
  · exact lt_of_le_of_lt (Utf8.length_ucs4ToUtf8_le _) (by decide)
  · exact (by decide : 2 < 2 ^ 31)
  · exact lt_of_le_of_lt (length_digits_le s w) (by decide)

theorem text_headD_ne (rest : List UInt8) : (s.text rest).headD 0 ≠ 0x25 := by
  rw [Spec.text]
  cases s.flags with
  | nil =>
    have hend := endsFlags_text s rest
    rw [map_nil, nil_append]
    intro heq
    rw [EndsFlags, heq] at hend
    revert hend
    decide
  | cons f l =>
    have hchar : f.char ≠ 0x25 := by cases f <;> decide
    exact hchar

/-- Whatever is printed, the count grows by its length. -/
theorem turn_text (m : Mem) (rest : List UInt8) (tail : List Nat) (st : St (List UInt8)) :
    turn m collect (0x25 :: s.text rest) (s.args w tail) st =
      .ok (.go rest tail { st with
        charsWritten := st.charsWritten + (s.printed w).length
        context := st.context ++ s.printed w }) := by
  have hhead : ¬ (0x25 :: s.text rest).headD 0 ≠ 0x25 := not_not.mpr rfl
  have haction : action m (0x25 :: s.text rest) (s.args w tail) =
      .ok (some ⟨none, s.pieces w, rest, tail⟩) := by
    rw [action, if_neg hhead, tail_cons, if_neg (text_headD_ne s rest),
      directive_text m s w rest tail (argPieces_arg s w)]
  have hemit := emitEach_collect (s.pieces w) (length_bytes_lt s w) st
  rw [turn, ok_bind haction, Spec.printed, ← hemit]
  rfl

/-- **Integer conversions.** The formatter prints what the standard prescribes, and counts it,
exactly for the specifications and values of `Spec.Right`. -/
theorem integer_right_iff (m : Mem) (s : Spec) (w : Nat) (rest : List UInt8) (tail : List Nat)
    (st : St (List UInt8)) : turn m collect (0x25 :: s.text rest) (s.args w tail) st =
      .ok (.go rest tail { st with
        charsWritten := st.charsWritten + (s.prescribed w).length
        context := st.context ++ s.prescribed w }) ↔ s.Right w := by
  rw [turn_text, ← printed_eq_iff]
  constructor
  · intro h
    have hst := congrArg (fun r => match r with
      | .ok (.go _ _ st) => st.context
      | _ => []) h
    exact append_cancel_left hst
  · intro h
    rw [h]

/-- `%05d` -/
def zeroFive : Spec :=
  ⟨[.zero], .number 5 (by decide) (by decide), .absent, .none, 32, rfl, .d⟩

/-- For -42 the standard prescribes `-0042`; the code prints `-00042`. -/
theorem minus_not_counted :
    turn ⟨fun _ => [], fun _ => []⟩ collect (0x25 :: zeroFive.text []) [2 ^ 32 - 42] ⟨0, [], []⟩ =
        .ok (.go [] [] ⟨6, [0x2D, 0x30, 0x30, 0x30, 0x34, 0x32], []⟩) ∧
      zeroFive.prescribed (2 ^ 32 - 42) = [0x2D, 0x30, 0x30, 0x34, 0x32] ∧
      ¬ zeroFive.Right (2 ^ 32 - 42) := by
  have hprescribed : zeroFive.prescribed (2 ^ 32 - 42) = [0x2D, 0x30, 0x30, 0x34, 0x32] := by
    decide +kernel
  have hturn := turn_text zeroFive (2 ^ 32 - 42) ⟨fun _ => [], fun _ => []⟩ [] [] ⟨0, [], []⟩
  refine ⟨hturn, hprescribed, ?_⟩
  rw [← printed_eq_iff]
  decide

end Directive

end Dgos.L1.Printk
