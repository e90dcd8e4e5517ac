import Dgos.L1Data.Utf8

/-!
# UTF-16 in the text library (user/libutf/utf.cc)

`ucs4_to_utf16` encodes one character, `utf16_to_ucs4` and its big endian sibling
`utf16be_to_ucs4` decode one. Code units and characters are numbers, reduced where the code
stores them into 16 bits. A pointer into a text is the list of units from there to the end of
the buffer; a read behind the end is `none`.

The encoder subtracts `0x10000` from a character above the basic plane. Neither decoder adds
it again.

Results:
* `utf16ToUcs4_units`, `utf16beToUcs4_units`: what each decoder makes of an encoded character,
  whatever follows it.
* `decode_encode_iff`: decoding an encoded text up to its terminator gives the text back,
  with either decoder, exactly when all its characters are in the basic plane.
* `count_inside_iff`: `utf8_count` and `utf16_count` return, exactly when all surrogates are
  paired.
* `converted_iff`: `utf16_to_utf8` stays in both buffers and passes the units whose bytes it has
  stored, exactly when the text is empty, or in the basic plane with room for it all.
-/
namespace Dgos.L1.Utf

open List Nat Utf8
open Utf8 (ucs4ToUtf8 ucs4ToUtf8_eq length_ucs4ToUtf8_le)

/-! ## The code -/

/-- `ucs4_to_utf16` with a buffer: the return value and the units stored.
mirrors utf.cc:72-96 -/
def ucs4ToUtf16 (c : Nat) : Nat × List Nat :=
  if 0 < c ∧ c < 0xD800 ∨ 0xDFFF < c ∧ c < 0x10000 then (1, [c % 2 ^ 16, 0])
  else if 0xFFFF < c ∧ c < 0x110000 then
    let c := c - 0x10000
    (2, [0xD800 + (c >>> 10 &&& 0x3FF), 0xDC00 + (c &&& 0x3FF), 0])
  else (0, [0])

/-- The character of a surrogate pair, as both decoders compute it.
mirrors utf.cc:192-193 and 228-229 -/
def ofSurrogates (in0 in1 : Nat) : Nat := (in0 - 0xD800) <<< 10 ||| ((in1 - 0xDC00) &&& 0x3FF)

/-- `utf16_to_ucs4` with a `ret_end`, and `utf16_to_ucs4_upd`: the character and where `in`
stands afterwards. An invalid pair is not consumed.
mirrors utf.cc:182-203 -/
def utf16ToUcs4 : List Nat → Option (Nat × List Nat)
  | [] => none
  | in0 :: rest =>
    if in0 < 0xD800 ∨ 0xDFFF < in0 then some (in0, if in0 ≠ 0 then rest else in0 :: rest)
    else if 0xD800 ≤ in0 ∧ in0 ≤ 0xDBFF then
      match rest with
      | [] => none
      | in1 :: rest' =>
        if 0xDC00 ≤ in1 ∧ in1 ≤ 0xDFFF then some (ofSurrogates in0 in1, rest')
        else some (0, in0 :: rest)
    else some (0, in0 :: rest)

/-- `ntohs` on a little endian machine. -/
def ntohs (x : Nat) : Nat := x % 2 ^ 8 * 2 ^ 8 + x / 2 ^ 8

/-- `utf16be_to_ucs4` with a `ret_end`. The second unit is read for any surrogate.
mirrors utf.cc:206-234 -/
def utf16beToUcs4 : List Nat → Option (Nat × List Nat)
  | [] => none
  | unit :: rest =>
    let in0 := ntohs unit
    if in0 < 0xD800 ∨ 0xDFFF < in0 then some (in0, if in0 ≠ 0 then rest else unit :: rest)
    else
      match rest with
      | [] => none
      | unit' :: rest' =>
        let in1 := ntohs unit'
        if (0xD800 ≤ in0 ∧ in0 ≤ 0xDBFF) ∧ (0xDC00 ≤ in1 ∧ in1 ≤ 0xDFFF) then
          some (ofSurrogates in0 in1, rest')
        else some (0, unit :: rest)

/-! ## Texts -/

/-- A Unicode scalar value that can stand in a text. -/
@[ext] structure Scalar where
  val : Nat
  valid : val.isValidChar
  ne_zero : val ≠ 0

/-- The units of a text one after the other, and the terminator. -/
def encode (cs : List Scalar) : List Nat :=
  (cs.flatMap fun c => (ucs4ToUtf16 c.val).2.take (ucs4ToUtf16 c.val).1) ++ [0]

/-- Decode until the decoder returns 0. The characters before it, and where `in` stands. -/
def decode (dec : List Nat → Option (Nat × List Nat)) :
    Nat → List Nat → Option (List Nat × List Nat)
  | 0, _ => none
  | fuel + 1, p => do
    let (c, p') ← dec p
    if c = 0 then some ([], p')
    else
      let (cs, q) ← decode dec fuel p'
      some (c :: cs, q)

/-- Decoding the encoded text gives the text back and stops at its terminator. `swap` is what
is done to each unit in between. -/
def RoundTrip (dec : List Nat → Option (Nat × List Nat)) (swap : Nat → Nat)
    (cs : List Scalar) : Prop :=
  ∀ fuel, cs.length < fuel → decode dec fuel ((encode cs).map swap) = some (cs.map (·.val), [0])

/-! ## One character -/

/-- What the encoder stores for a character, without the terminator. -/
def units (c : Scalar) : List Nat := (ucs4ToUtf16 c.val).2.take (ucs4ToUtf16 c.val).1

variable {c : Scalar}

theorem and_3ff (n : Nat) : n &&& 0x3FF = n % 2 ^ 10 := and_two_pow_sub_one_eq_mod n 10

theorem units_cases (c : Scalar) :
    c.val < 0x10000 ∧ (c.val < 0xD800 ∨ 0xDFFF < c.val) ∧ units c = [c.val] ∨
      ∃ hi lo, hi < 2 ^ 10 ∧ lo < 2 ^ 10 ∧ c.val = 0x10000 + hi * 2 ^ 10 + lo ∧
        units c = [0xD800 + hi, 0xDC00 + lo] := by
  have hvalid := c.valid
  have h0 := c.ne_zero
  rcases lt_or_ge c.val 0x10000 with hc | hc
  · refine .inl ⟨hc, by omega, ?_⟩
    rw [units, ucs4ToUtf16, if_pos (by omega), mod_eq_of_lt (show c.val < 2 ^ 16 from hc)]
    rfl
  · refine .inr ⟨(c.val - 0x10000) / 2 ^ 10, (c.val - 0x10000) % 2 ^ 10, by omega, by omega,
      by omega, ?_⟩
    rw [units, ucs4ToUtf16, if_neg (by omega), if_pos (by omega)]
    simp only [take_succ_cons, take_zero, and_3ff, shiftRight_eq_div_pow]
    rw [mod_eq_of_lt (by omega : (c.val - 0x10000) / 2 ^ 10 < 2 ^ 10)]

theorem units_bounds (c : Scalar) : ∀ u ∈ units c, 0 < u ∧ u < 2 ^ 16 := by
  intro u hu
  have hpos := c.ne_zero
  rcases units_cases c with ⟨hc, -, heq⟩ | ⟨hi, lo, hhi, hlo, -, heq⟩
  · rw [heq, mem_singleton] at hu
    omega
  · rw [heq, mem_cons, mem_singleton] at hu
    omega

variable {d : Scalar}

/-- The units of a character show where they end. -/
theorem units_append_inj {l l' : List Nat} (h : units c ++ l = units d ++ l') :
    c.val = d.val ∧ l = l' := by
  rcases units_cases c with ⟨-, hrange, heq⟩ | ⟨hi, lo, hhi, hlo, hval, heq⟩ <;>
  rcases units_cases d with ⟨-, hrange', heq'⟩ | ⟨hi', lo', hhi', hlo', hval', heq'⟩ <;>
  simp only [heq, heq', cons_append, nil_append, List.cons.injEq] at h
  · exact h
  · omega
  · omega
  · exact ⟨by omega, h.2.2⟩

theorem units_ne_nil (c : Scalar) : units c ≠ [] := by
  rcases units_cases c with ⟨-, -, heq⟩ | ⟨hi, lo, -, -, -, heq⟩ <;>
  simp [heq]

variable {cs : List Scalar}

theorem flatMap_units_inj {ds : List Scalar} (h : cs.flatMap units = ds.flatMap units) :
    cs = ds := by
  induction cs generalizing ds with
  | nil =>
    cases ds with
    | nil => rfl
    | cons d ds =>
      exact absurd (append_eq_nil_iff.mp h.symm).1 (units_ne_nil d)
  | cons c cs ih =>
    cases ds with
    | nil =>
      exact absurd (append_eq_nil_iff.mp h).1 (units_ne_nil c)
    | cons d ds =>
      obtain ⟨hval, hrest⟩ := units_append_inj h
      rw [Scalar.ext hval, ih hrest]

theorem ofSurrogates_pair {hi lo : Nat} (hlo : lo < 2 ^ 10) :
    ofSurrogates (0xD800 + hi) (0xDC00 + lo) = hi * 2 ^ 10 + lo := by
  rw [ofSurrogates, Nat.add_sub_cancel_left, Nat.add_sub_cancel_left, and_3ff,
    mod_eq_of_lt hlo, ← shiftLeft_add_eq_or_of_lt hlo, shiftLeft_eq]

/-- What comes back of a character. -/
def residue (c : Nat) : Nat := if c < 0x10000 then c else c - 0x10000

theorem residue_pair {hi lo : Nat} (hc : c.val = 0x10000 + hi * 2 ^ 10 + lo) :
    residue c.val = hi * 2 ^ 10 + lo := by
  rw [residue, if_neg (by omega)]
  omega

/-- `dec` reads an encoded character, each unit sent through `swap`, as its residue and stops
at the terminator. -/
structure Reads (dec : List Nat → Option (Nat × List Nat)) (swap : Nat → Nat) : Prop where
  units : ∀ (c : Scalar) (rest : List Nat),
    dec ((units c).map swap ++ rest) = some (residue c.val, rest)
  stop : dec ([0].map swap) = some (0, [0])

theorem utf16ToUcs4_units : Reads utf16ToUcs4 id where
  units c rest := by
    rw [map_id]
    rcases units_cases c with ⟨hc, hrange, heq⟩ | ⟨hi, lo, hhi, hlo, hval, heq⟩
    · rw [heq, residue, if_pos hc, singleton_append]
      simp only [utf16ToUcs4]
      rw [if_pos hrange, if_pos c.ne_zero]
    · rw [heq, residue_pair hval, ← ofSurrogates_pair hlo]
      simp only [cons_append, nil_append, utf16ToUcs4]
      rw [if_neg (by omega), if_pos (by omega), if_pos (by omega)]
  stop := rfl

theorem ntohs_ntohs {x : Nat} (hx : x < 2 ^ 16) : ntohs (ntohs x) = x := by
  simp only [ntohs]
  omega

theorem utf16beToUcs4_units : Reads utf16beToUcs4 ntohs where
  units c rest := by
    rcases units_cases c with ⟨hc, hrange, heq⟩ | ⟨hi, lo, hhi, hlo, hval, heq⟩
    · rw [heq, residue, if_pos hc, map_singleton, singleton_append]
      simp only [utf16beToUcs4, ntohs_ntohs hc]
      rw [if_pos hrange, if_pos c.ne_zero]
    · rw [heq, residue_pair hval, ← ofSurrogates_pair hlo]
      simp only [map_cons, map_nil, cons_append, nil_append, utf16beToUcs4,
        ntohs_ntohs (show 0xD800 + hi < 2 ^ 16 by omega),
        ntohs_ntohs (show 0xDC00 + lo < 2 ^ 16 by omega)]
      rw [if_neg (by omega), if_pos (by omega)]
  stop := rfl

/-! ## Texts -/

section Texts

variable {dec : List Nat → Option (Nat × List Nat)} {swap : Nat → Nat}

theorem decode_cons (h : Reads dec swap) (c : Scalar) (cs : List Scalar) (fuel : Nat) :
    decode dec (fuel + 1) ((encode (c :: cs)).map swap) =
      if residue c.val = 0 then some ([], (encode cs).map swap)
      else (decode dec fuel ((encode cs).map swap)).map fun r => (residue c.val :: r.1, r.2) := by
  rw [show encode (c :: cs) = units c ++ encode cs by simp [encode, units], map_append, decode, h.units]
  simp only [Option.bind_eq_bind, Option.bind_some]
  split
  · rfl
  · cases decode dec fuel ((encode cs).map swap) <;> rfl

theorem residue_basic (hc : c.val < 0x10000) : residue c.val = c.val := if_pos hc

theorem roundTrip_of_basic (h : Reads dec swap)
    (hcs : ∀ c ∈ cs, c.val < 0x10000) : RoundTrip dec swap cs := by
  intro fuel hfuel
  induction cs generalizing fuel with
  | nil =>
    obtain ⟨fuel, rfl⟩ := exists_eq_succ_of_ne_zero (ne_of_gt hfuel)
    rw [decode, encode, flatMap_nil, nil_append, h.stop]
    rfl
  | cons c cs ih =>
    obtain ⟨fuel, rfl⟩ := exists_eq_succ_of_ne_zero (ne_of_gt (zero_lt_of_lt hfuel))
    have hc := hcs c mem_cons_self
    rw [decode_cons h, residue_basic hc, if_neg c.ne_zero,
      ih (fun c' hc' => hcs c' (mem_cons_of_mem c hc')) fuel (lt_of_succ_lt_succ hfuel)]
    rfl

theorem basic_of_roundTrip (h : Reads dec swap) (hrt : RoundTrip dec swap cs) :
    ∀ c ∈ cs, c.val < 0x10000 := by
  induction cs with
  | nil => simp
  | cons c cs ih =>
    -- the first character comes back, so it is in the basic plane, and so does the rest
    have hstep : ∀ fuel, cs.length < fuel → residue c.val = c.val ∧
        decode dec fuel ((encode cs).map swap) = some (cs.map (·.val), [0]) := by
      intro fuel hfuel
      have hdec := hrt (fuel + 1) (succ_lt_succ hfuel)
      rw [decode_cons h] at hdec
      split at hdec
      · simp at hdec
      cases hrest : decode dec fuel ((encode cs).map swap) with
      | none => simp [hrest] at hdec
      | some r =>
        simp only [hrest, Option.map_some, Option.some.injEq, Prod.mk.injEq, map_cons,
          List.cons.injEq] at hdec
        exact ⟨hdec.1.1, congrArg some (Prod.ext hdec.1.2 hdec.2)⟩
    have hc : c.val < 0x10000 := by
      by_contra hge
      have hres := (hstep _ (lt_succ_self _)).1
      rw [residue, if_neg hge] at hres
      omega
    exact forall_mem_cons.2 ⟨hc, ih fun fuel hfuel => (hstep fuel hfuel).2⟩

end Texts

/-- **UTF-16 round trip.** A text comes back through both decoders exactly when all its
characters are in the basic plane. -/
theorem decode_encode_iff (cs : List Scalar) :
    (RoundTrip utf16ToUcs4 id cs ∧ RoundTrip utf16beToUcs4 ntohs cs) ↔
      ∀ c ∈ cs, c.val < 0x10000 := by
  constructor
  · exact fun hrt => basic_of_roundTrip utf16ToUcs4_units hrt.1
  · exact fun hcs => ⟨roundTrip_of_basic utf16ToUcs4_units hcs,
      roundTrip_of_basic utf16beToUcs4_units hcs⟩

def grinningFace : Scalar := ⟨0x1F600, by decide, by decide⟩

/-- U+1F600 comes back as U+F600 through either decoder. -/
theorem supplementary_lost : decode utf16ToUcs4 3 (encode [grinningFace]) = some ([0xF600], [0]) ∧
      decode utf16beToUcs4 3 ((encode [grinningFace]).map ntohs) = some ([0xF600], [0]) ∧
      ¬ RoundTrip utf16ToUcs4 id [grinningFace] ∧ ¬ RoundTrip utf16beToUcs4 ntohs [grinningFace] := by
  refine ⟨by decide +kernel, by decide +kernel, fun hrt => ?_, fun hrt => ?_⟩
  · exact absurd (hrt 3 (by decide)) (by decide +kernel)
  · exact absurd (hrt 3 (by decide)) (by decide +kernel)

/-! ## Counting -/

/-- mirrors utf.cc:321-327 -/
def utf16Count : Nat → List Nat → Option Nat
  | 0, _ => none
  | fuel + 1, p => do
    if (← p.head?) = 0 then some 0
    else
      let (_, p') ← utf16ToUcs4 p
      (utf16Count fuel p').map (· + 1)

/-- The text of `len` bytes at `p` is counted, whatever stands behind its terminator. -/
def Utf8Counted (m : Buf) (p len : Nat) : Prop :=
  m (p + len) = 0 → (∀ i < len, m (p + i) ≠ 0) → ∀ m' : Buf, (∀ i ≤ len, m' (p + i) = m (p + i)) →
      Utf8.utf8Count m' (len + 1) p = some (Utf8.points m (p + len) len p).length

/-- The loop returns, and reads nothing behind the end of the list. -/
def Utf16Counted (p : List Nat) : Prop := ∃ fuel n, utf16Count fuel p = some n

/-- Every surrogate in front of a terminator belongs to a pair. -/
def Paired : List Nat → Prop
  | [] => True
  | [u] => u < 0xD800 ∨ 0xDFFF < u
  | u :: v :: us => u = 0 ∨ (u < 0xD800 ∨ 0xDFFF < u) ∧ Paired (v :: us) ∨
    (0xD800 ≤ u ∧ u ≤ 0xDBFF) ∧ (0xDC00 ≤ v ∧ v ≤ 0xDFFF) ∧ Paired us

theorem utf8Counted (m : Buf) (p len : Nat) : Utf8Counted m p len := by
  intro hz hne m' hm
  have hz' : m' (p + len) = 0 := (hm len le_rfl).trans hz
  have hs : Same m' p m p len :=
    ⟨fun i hi => hm i hi.le, by rw [hz']; decide, by rw [hz]; decide⟩
  have hne' : ∀ i, p ≤ i → i < p + len → m' i ≠ 0 := by
    intro i hi hlt
    obtain ⟨k, rfl⟩ := Nat.exists_eq_add_of_le hi
    rw [hm k (by omega)]
    exact hne k (by omega)
  have hp : points m' (p + len) len p = _ := points_same hs len (i := 0) (.inl rfl)
  rw [utf8Count_eq hz' hne' (by omega) (by omega), Nat.add_sub_cancel_left, hp]
  rfl

variable {u x : Nat} {us p : List Nat}

theorem utf16Counted_step (hu : u ≠ 0) (h : utf16ToUcs4 (u :: us) = some (x, p)) :
    Utf16Counted (u :: us) ↔ Utf16Counted p := by
  constructor
  · rintro ⟨_ | fuel, n, hn⟩
    · cases hn
    · obtain ⟨k, hk, -⟩ : ∃ k, utf16Count fuel p = some k ∧ k + 1 = n := by
        simpa [utf16Count, hu, h] using hn
      exact ⟨fuel, k, hk⟩
  · rintro ⟨fuel, n, hn⟩
    exact ⟨fuel + 1, n + 1, by simp [utf16Count, hu, h, hn]⟩

/-- A step that does not move is repeated for ever. -/
theorem not_utf16Counted (hu : u ≠ 0) (h : utf16ToUcs4 (u :: us) = some (x, u :: us)) :
    ¬ Utf16Counted (u :: us) := by
  have hnone : ∀ fuel, utf16Count fuel (u :: us) = none := by
    intro fuel
    induction fuel with
    | zero => rfl
    | succ fuel ih => simp [utf16Count, h, hu, ih]
  rintro ⟨fuel, n, hn⟩
  rw [hnone] at hn
  cases hn

theorem utf16Counted_iff (us : List Nat) : Utf16Counted (us ++ [0]) ↔ Paired us := by
  have hstop : ∀ p, Utf16Counted (0 :: p) := fun p => ⟨1, 0, rfl⟩
  have hbasic : ∀ u p, u ≠ 0 → (u < 0xD800 ∨ 0xDFFF < u) →
      (Utf16Counted (u :: p) ↔ Utf16Counted p) := fun u p hu hb =>
    utf16Counted_step (x := u) hu (by simp [utf16ToUcs4, hb, hu])
  fun_induction Paired us with
  | case1 => exact iff_of_true (hstop []) trivial
  | case2 u =>
    by_cases hu : u = 0
    · exact iff_of_true (hu ▸ hstop [0]) (by omega)
    by_cases hb : u < 0xD800 ∨ 0xDFFF < u
    · exact iff_of_true ((hbasic u [0] hu hb).2 (hstop [])) hb
    · exact iff_of_false (not_utf16Counted hu (x := 0) (by simp [utf16ToUcs4, hb])) hb
  | case3 u v us ih ih' =>
    rw [cons_append, cons_append]
    by_cases hu : u = 0
    · exact iff_of_true (hu ▸ hstop _) (.inl hu)
    by_cases hb : u < 0xD800 ∨ 0xDFFF < u
    · refine (hbasic u _ hu hb).trans (ih.trans ⟨fun h => .inr (.inl ⟨hb, h⟩), ?_⟩)
      rintro (h | ⟨-, h⟩ | ⟨h, -⟩)
      · exact absurd h hu
      · exact h
      · omega
    by_cases hp : (0xD800 ≤ u ∧ u ≤ 0xDBFF) ∧ 0xDC00 ≤ v ∧ v ≤ 0xDFFF
    · have hstep : utf16ToUcs4 (u :: v :: (us ++ [0])) = some (ofSurrogates u v, us ++ [0]) := by
        simp [utf16ToUcs4, hb, hp]
      exact (utf16Counted_step hu hstep).trans (ih'.trans (by tauto))
    · refine iff_of_false (not_utf16Counted hu (x := 0) ?_) (by tauto)
      simp only [utf16ToUcs4, hb]
      split_ifs <;> tauto

/-- **Counting.** Both loops return, without a unit from behind the terminator, exactly when the
surrogates are paired: the step at another surrogate does not move. -/
theorem count_inside_iff (m : Buf) (p len : Nat) (us : List Nat) :
    Utf8Counted m p len ∧ Utf16Counted (us ++ [0]) ↔ Paired us :=
  (and_iff_right (utf8Counted m p len)).trans (utf16Counted_iff us)

/-- A high surrogate in front of the terminator. -/
theorem surrogate_not_passed : ¬ Utf16Counted [0xD800, 0] := not_utf16Counted (x := 0) (by decide) rfl

/-! ## Conversion to UTF-8 -/

/-- `utf16_to_utf8` between two characters: the bytes in front of `output`, how many bytes
have been stored, with the terminator behind them, and where `input` stands. -/
structure Conv where
  out : List UInt8
  stored : Nat
  input : List Nat

/-- mirrors utf.cc:337-343 -/
def utf16ToUtf8Loop (outputSz : Nat) : Nat → Conv → Option Conv
  | 0, s => some s
  | n + 1, s => do
    let (codepoint, input) ← utf16ToUcs4 s.input
    let bytes := ucs4ToUtf8 codepoint
    if outputSz < s.out.length + bytes.length then some { s with input }
    else utf16ToUtf8Loop outputSz n ⟨s.out ++ bytes, s.out.length + bytes.length + 1, input⟩

/-- The result is the length of `out` and how far `input` has moved.
mirrors utf.cc:329-352 -/
def utf16ToUtf8 (outputSz : Nat) (input : List Nat) : Option Conv :=
  utf16ToUtf8Loop outputSz input.length ⟨[], 0, input⟩

def Scalar.toChar (c : Scalar) : Char := Char.ofNatAux c.val c.valid

/-- The UTF-8 of a text. -/
def utf8 (cs : List Scalar) : List UInt8 := cs.flatMap fun c => String.utf8EncodeChar c.toChar

/-- The conversion of a text stays in both buffers, and its bytes are those of the units
passed, so that it can be continued behind them. -/
def Converted (outputSz : Nat) (cs : List Scalar) : Prop :=
  ∃ r ds es, utf16ToUtf8 outputSz (cs.flatMap units) = some r ∧ r.stored ≤ outputSz ∧
    cs = ds ++ es ∧ r.input = es.flatMap units ∧ r.out = utf8 ds

variable {n outputSz stored : Nat} {out : List UInt8} {r : Conv} {c : Scalar} {cs : List Scalar}

theorem loop_cons (cs : List Scalar) :
    utf16ToUtf8Loop outputSz (n + 1) ⟨out, stored, (c :: cs).flatMap units⟩ =
      if outputSz < out.length + (ucs4ToUtf8 (residue c.val)).length then
        some ⟨out, stored, cs.flatMap units⟩
      else utf16ToUtf8Loop outputSz n ⟨out ++ ucs4ToUtf8 (residue c.val),
        out.length + (ucs4ToUtf8 (residue c.val)).length + 1, cs.flatMap units⟩ := by
  have hdec := utf16ToUcs4_units.units c (cs.flatMap units)
  rw [map_id] at hdec
  rw [utf16ToUtf8Loop, flatMap_cons, hdec]
  rfl

theorem utf8_cons : utf8 (c :: cs) = String.utf8EncodeChar c.toChar ++ utf8 cs := flatMap_cons

/-- A character above the basic plane becomes no more bytes than its own four. -/
theorem length_ucs4ToUtf8_residue (c : Scalar) :
    (ucs4ToUtf8 (residue c.val)).length ≤ (String.utf8EncodeChar c.toChar).length := by
  rcases lt_or_ge c.val 0x10000 with hc | hc
  · rw [residue_basic hc, ← ucs4ToUtf8_eq]
    exact le_rfl
  · have h4 : c.toChar.utf8Size = 4 := Char.utf8Size_eq_four_iff.2 (UInt32.lt_iff_toNat_lt.2 hc)
    rw [String.length_utf8EncodeChar, h4]
    exact length_ucs4ToUtf8_le _

theorem length_flatMap_units (cs : List Scalar) : cs.length ≤ (cs.flatMap units).length ∧
    ((cs.flatMap units).length = cs.length ↔ ∀ c ∈ cs, c.val < 0x10000) := by
  induction cs with
  | nil => simp
  | cons c cs ih =>
    rw [flatMap_cons, length_append, length_cons, forall_mem_cons, ← ih.2]
    rcases units_cases c with ⟨hc, -, heq⟩ | ⟨hi, lo, -, -, hval, heq⟩
    · rw [heq, length_singleton]
      omega
    · rw [heq, length_cons, length_singleton]
      omega

/-- A text of the basic plane, with room for all its bytes and the terminator. -/
theorem loop_basic (hcs : ∀ c ∈ cs, c.val < 0x10000) (hst : stored ≤ outputSz)
    (hroom : out.length + (utf8 cs).length < outputSz) :
    ∃ r, utf16ToUtf8Loop outputSz cs.length ⟨out, stored, cs.flatMap units⟩ = some r ∧
      r.stored ≤ outputSz ∧ r.input = [] ∧ r.out = out ++ utf8 cs := by
  induction cs generalizing out stored with
  | nil => exact ⟨_, rfl, hst, rfl, (append_nil out).symm⟩
  | cons c cs ih =>
    have hbytes : ucs4ToUtf8 (residue c.val) = String.utf8EncodeChar c.toChar := by
      rw [residue_basic (hcs c mem_cons_self)]
      exact ucs4ToUtf8_eq c.toChar
    rw [utf8_cons, ← append_assoc]
    rw [utf8_cons, length_append] at hroom
    rw [length_cons, loop_cons, hbytes, if_neg (by omega)]
    exact ih (fun d hd => hcs d (mem_cons_of_mem c hd)) (by omega) (by rw [length_append]; omega)

/-- The loop ends behind the text, or it passes a character without storing its bytes. -/
theorem loop_ends (hn : cs.length ≤ n)
    (h : utf16ToUtf8Loop outputSz n ⟨out, stored, cs.flatMap units⟩ = some r) :
    n = cs.length ∧ r.input = [] ∧ (cs ≠ [] → r.stored = r.out.length + 1) ∨
      ∃ ds c es, cs = ds ++ c :: es ∧ r.input = es.flatMap units ∧
        r.out.length ≤ out.length + (utf8 ds).length := by
  induction cs generalizing n out stored with
  | nil =>
    cases n with
    | zero => cases h; simp
    | succ n => cases h
  | cons c cs ih =>
    obtain _ | n := n
    · simp at hn
    rw [loop_cons] at h
    split at h
    · cases h
      exact .inr ⟨[], c, cs, rfl, rfl, le_add_right _ _⟩
    rcases ih (le_of_succ_le_succ hn) h with ⟨rfl, hin, hst⟩ | ⟨ds, d, es, rfl, hin, hlen⟩
    · refine .inl ⟨rfl, hin, fun _ => ?_⟩
      cases cs with
      | nil => cases h; simp
      | cons d ds => exact hst (by simp)
    · refine .inr ⟨c :: ds, d, es, rfl, hin, hlen.trans ?_⟩
      have := length_ucs4ToUtf8_residue c
      rw [length_append]
      rw [utf8_cons, length_append]
      omega

/-- **Conversion.** The result is right exactly when the text is empty, or in the basic plane
with room for all its bytes and a terminator. -/
theorem converted_iff (outputSz : Nat) (cs : List Scalar) : Converted outputSz cs ↔
    cs = [] ∨ (∀ c ∈ cs, c.val < 0x10000) ∧ (utf8 cs).length < outputSz := by
  obtain ⟨hle, hbasic⟩ := length_flatMap_units cs
  constructor
  · rintro ⟨r, ds, es, hr, hst, rfl, hin, hout⟩
    rcases loop_ends hle hr with ⟨hn, hin', hst'⟩ | ⟨ds', c, es', he, hin', hlen⟩
    · obtain rfl : es = [] := flatMap_units_inj (hin.symm.trans hin')
      rw [append_nil] at *
      refine (em (ds = [])).imp_right fun hne => ⟨hbasic.1 hn, ?_⟩
      rw [← hout]
      have := hst' hne
      omega
    · obtain rfl : es = es' := flatMap_units_inj (hin.symm.trans hin')
      obtain rfl : ds = ds' ++ [c] := append_cancel_right (he.trans (by simp))
      have := length_pos_of_ne_nil (String.utf8EncodeChar_ne_nil (c := c.toChar))
      rw [hout, utf8, flatMap_append, length_append, flatMap_singleton] at hlen
      exact absurd hlen (by simp only [utf8, length_nil]; omega)
  · rintro (rfl | ⟨hcs, hlt⟩)
    · exact ⟨⟨[], 0, []⟩, [], [], rfl, zero_le _, rfl, rfl, rfl⟩
    · obtain ⟨r, hr, hst, hin, hout⟩ := loop_basic hcs outputSz.zero_le
        (show ([] : List UInt8).length + (utf8 cs).length < outputSz by simpa using hlt)
      exact ⟨r, cs, [], by rw [utf16ToUtf8, hbasic.2 hcs, hr], hst, by simp, hin, hout⟩

/-- The loop reads on behind a pair, stores a terminator behind the buffer, and passes a
character that does not fit. -/
theorem pair_read_on : utf16ToUtf8 8 [0xD83D, 0xDE00] = none ∧
    utf16ToUtf8 1 [0x41] = some ⟨[0x41], 2, []⟩ ∧ utf16ToUtf8 1 [0xE9] = some ⟨[], 0, []⟩ ∧
    ¬ Converted 8 [grinningFace] := by
  have hnone : (utf16ToUtf8 8 ([grinningFace].flatMap units)).isNone := by decide +kernel
  refine ⟨rfl, rfl, rfl, ?_⟩
  rintro ⟨r, ds, es, hr, -⟩
  rw [hr] at hnone
  cases hnone

end Dgos.L1.Utf
