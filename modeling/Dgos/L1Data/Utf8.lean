import Dgos.Core.Bytes

/-!
# UTF-8 in the text library (user/libutf/utf.cc)

`utf8_to_ucs4_upd` decodes one character and moves the pointer behind it. An invalid sequence
decodes to -1, here `none`: every further `|=` leaves -1 as it is.

A pointer is a position in memory. The decoder takes the bytes that should continue a sequence
from wherever they are, also from behind the part of the text that the caller meant. The result
does not depend on them: the parts of paths end in front of a `/` or a terminator, and neither
continues a sequence (`decode_same`). A character in its proper encoding decodes to itself
(`utf8ToUcs4Upd_encode`), and `ucs4_to_utf8` gives that encoding (`ucs4ToUtf8_eq`); whole texts come
back (`text_round_trip`).
-/
namespace Dgos.L1.Utf8

open Nat String List
open Nat (mod_lt)

/-- The steps for one byte behind the first.
mirrors utf.cc:122-128 -/
def continuation (m : Buf) (shift : Nat) (s : Option Nat × Nat) : Option Nat × Nat :=
  let b := (m s.2).toNat
  let n := if b &&& 0xC0 ≠ 0x80 then none else s.1
  if b ≠ 0 then (n.map fun n => n ||| (b &&& 0x3F) <<< shift, s.2 + 1) else (none, s.2)

/-- The character at `p` and the position behind it.
mirrors utf.cc:113-179 -/
def utf8ToUcs4Upd (m : Buf) (p : Nat) : Option Nat × Nat :=
  let b := (m p).toNat
  if b &&& 0x80 = 0 then (some (b &&& 0x7F), p + 1)
  else if b &&& 0xE0 = 0xC0 then continuation m 0 (some ((b &&& 0x1F) <<< 6), p + 1)
  else if b &&& 0xF0 = 0xE0 then
    continuation m 0 (continuation m 6 (some ((b &&& 0x0F) <<< 12), p + 1))
  else if b &&& 0xF8 = 0xF0 then
    continuation m 0 (continuation m 6 (continuation m 12 (some ((b &&& 0x07) <<< 18), p + 1)))
  else (none, p + 1)

/-- The bytes of a character, without the terminator; none if it is not one.
mirrors utf.cc:32-68 -/
def ucs4ToUtf8 (ch : Nat) : List UInt8 :=
  if ch < 0x80 then [UInt8.ofNat ch]
  else
    let encode (len : Nat) : List UInt8 :=
      UInt8.ofNat (0xF80 >>> (len - 1) ||| ch >>> (6 * (len - 1))) ::
        ((List.range (len - 1)).reverse.map fun shift =>
          UInt8.ofNat (0x80 ||| ch >>> (6 * shift) &&& 0x3F))
    if ch < 0x800 then encode 2
    else if ch < 0x10000 then encode 3
    else if ch < 0x110000 then encode 4
    else []

theorem length_ucs4ToUtf8_le (ch : Nat) : (ucs4ToUtf8 ch).length ≤ 4 := by
  simp only [ucs4ToUtf8]
  split
  · simp
  split
  · simp
  split
  · simp
  split <;> simp

/-- The characters from `p` up to `e`; the last one may take bytes from `e` on. -/
def points (m : Buf) (e : Nat) : Nat → Nat → List (Option Nat)
  | 0, _ => []
  | fuel + 1, p =>
    if p < e then (utf8ToUcs4Upd m p).1 :: points m e fuel (utf8ToUcs4Upd m p).2 else []

/-- The loop from `p` on.
mirrors utf.cc:313-319 -/
def utf8Count (m : Buf) : Nat → Nat → Option Nat
  | 0, _ => none
  | fuel + 1, p =>
    if m p = 0 then some 0 else (utf8Count m fuel (utf8ToUcs4Upd m p).2).map (· + 1)

/-! ## Where the decoder ends -/

theorem continuation_ge (m : Buf) (shift : Nat) (s : Option Nat × Nat) :
    s.2 ≤ (continuation m shift s).2 := by
  simp only [continuation]
  split
  · exact le_succ _
  · exact le_rfl

variable {m m' : Buf} {z p q e j len : Nat} {s : Option Nat × Nat}

/-- What holds behind the first byte and is kept at every further byte holds in the end, also
between two texts with the same first byte. -/
theorem utf8ToUcs4Upd_rec {R : Option Nat × Nat → Option Nat × Nat → Prop} (hb : m p = m' q)
    (hfirst : ∀ n : Option Nat, (∀ c ∈ n, c < 2 ^ 21) → R (n, p + 1) (n, q + 1))
    (hstep : ∀ shift ≤ 12, ∀ s s', R s s' → R (continuation m shift s) (continuation m' shift s')) :
    R (utf8ToUcs4Upd m p) (utf8ToUcs4Upd m' q) := by
  have hbits : ∀ k shift {mask}, mask < 2 ^ k → k + shift ≤ 21 →
      ∀ c ∈ some (((m' q).toNat &&& mask) <<< shift), c < 2 ^ 21 := by
    rintro k shift mask hmask hle c ⟨⟩
    exact (shiftLeft_lt (and_lt_two_pow _ hmask)).trans_le (Nat.pow_le_pow_right (by decide) hle)
  simp only [utf8ToUcs4Upd, hb]
  split
  · exact hfirst _ (hbits 7 0 (by decide) (by decide))
  split
  · exact hstep 0 (by decide) _ _ (hfirst _ (hbits 5 6 (by decide) (by decide)))
  split
  · refine hstep 0 (by decide) _ _ (hstep 6 (by decide) _ _ (hfirst _ ?_))
    exact hbits 4 12 (by decide) (by decide)
  split
  · refine hstep 0 (by decide) _ _ (hstep 6 (by decide) _ _ (hstep 12 le_rfl _ _ (hfirst _ ?_)))
    exact hbits 3 18 (by decide) (by decide)
  · exact hfirst none nofun

theorem lt_utf8ToUcs4Upd (m : Buf) (p : Nat) : p < (utf8ToUcs4Upd m p).2 :=
  utf8ToUcs4Upd_rec (R := fun s _ => p < s.2) rfl (fun _ _ => p.lt_succ_self)
    fun shift _ s _ hs => hs.trans_le (continuation_ge m shift s)

/-- The decoder does not get past a terminator. -/
theorem continuation_le_nul (hz : m z = 0) (shift : Nat) (hs : s.2 ≤ z) :
    (continuation m shift s).2 ≤ z := by
  simp only [continuation]
  split
  · next hne =>
    have : s.2 ≠ z := by
      intro heq
      rw [heq, hz] at hne
      exact hne rfl
    omega
  · exact hs

theorem utf8ToUcs4Upd_le_nul (hz : m z = 0) (hp : p < z) : (utf8ToUcs4Upd m p).2 ≤ z :=
  utf8ToUcs4Upd_rec (R := fun s _ => s.2 ≤ z) rfl (fun _ _ => hp)
    fun shift _ _ _ => continuation_le_nul hz shift

theorem utf8ToUcs4Upd_nul (hz : m z = 0) : utf8ToUcs4Upd m z = (some 0, z + 1) := by
  simp only [utf8ToUcs4Upd, hz]
  rfl

theorem points_nil (h : e ≤ p) (fuel : Nat) : points m e fuel p = [] := by
  cases fuel with
  | zero => rfl
  | succ fuel => rw [points, if_neg (by omega)]

theorem points_fuel {fuel fuel' : Nat} (h : e - p ≤ fuel) (h' : e - p ≤ fuel') :
    points m e fuel p = points m e fuel' p := by
  induction fuel generalizing fuel' p with
  | zero =>
    have hle : e ≤ p := by omega
    rw [points_nil hle, points_nil hle]
  | succ fuel ih =>
    by_cases hp : p < e
    · obtain ⟨k, rfl⟩ : ∃ k, fuel' = k + 1 := ⟨fuel' - 1, by omega⟩
      have hlt := lt_utf8ToUcs4Upd m p
      rw [points, points, if_pos hp, if_pos hp, ih (by omega)
        (show e - (utf8ToUcs4Upd m p).2 ≤ k by omega)]
    · have hle : e ≤ p := by omega
      rw [points_nil hle, points_nil hle]

theorem points_cons (h : p < e) : points m e (e - p) p =
      (utf8ToUcs4Upd m p).1 :: points m e (e - (utf8ToUcs4Upd m p).2) (utf8ToUcs4Upd m p).2 := by
  obtain ⟨k, hk⟩ : ∃ k, e - p = k + 1 := ⟨e - p - 1, by omega⟩
  have hlt := lt_utf8ToUcs4Upd m p
  rw [hk, points, if_pos h, points_fuel (show e - (utf8ToUcs4Upd m p).2 ≤ k by omega) le_rfl]

theorem points_append_nul (hz : m z = 0) (hp : p ≤ z) (he : z < e) : points m e (e - p) p =
      points m z (z - p) p ++ some 0 :: points m e (e - (z + 1)) (z + 1) := by
  induction h : z - p using Nat.strongRecOn generalizing p with
  | _ n ih =>
    subst h
    rcases lt_or_eq_of_le hp with hlt | rfl
    · have hgt := lt_utf8ToUcs4Upd m p
      have hle := utf8ToUcs4Upd_le_nul hz hlt
      rw [points_cons (by omega), points_cons hlt, ih _ (by omega) hle rfl]
      rfl
    · rw [points_cons he, utf8ToUcs4Upd_nul hz, points_nil (le_refl p)]
      rfl

/-- All characters up to the terminator are counted. -/
theorem utf8Count_eq (hz : m z = 0) (hne : ∀ i, p ≤ i → i < z → m i ≠ 0) {fuel : Nat}
    (hp : p ≤ z) (hf : z - p < fuel) :
    utf8Count m fuel p = some (points m z (z - p) p).length := by
  induction fuel generalizing p with
  | zero => omega
  | succ fuel ih =>
    rw [utf8Count]
    rcases lt_or_eq_of_le hp with hlt | rfl
    · have hgt := lt_utf8ToUcs4Upd m p
      have hle := utf8ToUcs4Upd_le_nul hz hlt
      rw [if_neg (hne p le_rfl hlt), points_cons hlt,
        ih (fun i hi => hne i (by omega)) hle (by omega)]
      rfl
    · rw [if_pos hz, points_nil le_rfl]
      rfl

/-! ## Two copies of a text -/

/-- The same `len` bytes at `p` and at `q`, and behind them a byte that continues no
sequence. -/
structure Same (m : Buf) (p : Nat) (m' : Buf) (q len : Nat) : Prop where
  bytes : ∀ i < len, m (p + i) = m' (q + i)
  stop : (m (p + len)).toNat &&& 0xC0 ≠ 0x80
  stop' : (m' (q + len)).toNat &&& 0xC0 ≠ 0x80

/-- Two positions in the copies: the same, or both behind the text. -/
def InStep (len i j : Nat) : Prop := i = j ∨ len ≤ i ∧ len ≤ j

theorem InStep.lt_iff {len i : Nat} (h : InStep len i j) : i < len ↔ j < len := by
  rcases h with rfl | ⟨hi, hj⟩ <;> omega

theorem InStep.eq {len i : Nat} (h : InStep len i j) (hi : i < len) : i = j := by
  rcases h with rfl | ⟨hi', -⟩
  · rfl
  · omega

/-- In the middle of a sequence: the positions are the same and not behind the text, or the
sequence is already invalid. -/
def Agree (p q len : Nat) (s s' : Option Nat × Nat) : Prop :=
  s.1 = s'.1 ∧ ((∃ i ≤ len, s.2 = p + i ∧ s'.2 = q + i) ∨
    s.1 = none ∧ p + len ≤ s.2 ∧ q + len ≤ s'.2)

section Copies

theorem continuation_none (m : Buf) (shift pos : Nat) :
    (continuation m shift (none, pos)).1 = none := by
  simp only [continuation]
  split
  · split <;> rfl
  · rfl

/-- A byte that does not continue a sequence makes it invalid. -/
theorem continuation_stop (shift : Nat)
    (h : (m s.2).toNat &&& 0xC0 ≠ 0x80) : (continuation m shift s).1 = none := by
  simp only [continuation, if_pos h]
  split <;> rfl

theorem continuation_agree (h : Same m p m' q len) (shift : Nat) {s' : Option Nat × Nat}
    (hs : Agree p q len s s') :
    Agree p q len (continuation m shift s) (continuation m' shift s') := by
  obtain ⟨n, pos⟩ := s
  obtain ⟨n', pos'⟩ := s'
  obtain ⟨hn, ⟨i, hi, hpos, hpos'⟩ | ⟨hnone, hge, hge'⟩⟩ := hs
  · subst hn hpos hpos'
    rcases lt_or_eq_of_le hi with hlt | heq
    · have hb := h.bytes i hlt
      refine ⟨?_, .inl ?_⟩
      · simp only [continuation, hb]
        split <;> rfl
      · simp only [continuation, hb]
        split
        · exact ⟨i + 1, hlt, rfl, rfl⟩
        · exact ⟨i, hi, rfl, rfl⟩
    · subst heq
      have hval := continuation_stop shift (s := (n, p + i)) h.stop
      have hval' := continuation_stop shift (s := (n, q + i)) h.stop'
      exact ⟨hval.trans hval'.symm, .inr ⟨hval, continuation_ge m shift (n, p + i),
        continuation_ge m' shift (n, q + i)⟩⟩
  · subst hnone
    subst hn
    have hval := continuation_none m shift pos
    have hval' := continuation_none m' shift pos'
    exact ⟨hval.trans hval'.symm, .inr ⟨hval, hge.trans (continuation_ge m shift (none, pos)),
      hge'.trans (continuation_ge m' shift (none, pos'))⟩⟩

variable {i : Nat}

theorem utf8ToUcs4Upd_agree (h : Same m p m' q len) (hi : i < len) :
    Agree p q len (utf8ToUcs4Upd m (p + i)) (utf8ToUcs4Upd m' (q + i)) :=
  utf8ToUcs4Upd_rec (h.bytes i hi) (fun _ _ => ⟨rfl, .inl ⟨i + 1, hi, rfl, rfl⟩⟩)
    fun shift _ _ _ => continuation_agree h shift

/-- The character at a place of the text, and where the decoder ends, in both copies. -/
theorem decode_same (h : Same m p m' q len) (hi : i < len) :
    ∃ c i' j', utf8ToUcs4Upd m (p + i) = (c, p + i') ∧ utf8ToUcs4Upd m' (q + i) = (c, q + j') ∧
      InStep len i' j' ∧ i < i' ∧ i < j' := by
  obtain ⟨hc, hpos⟩ := utf8ToUcs4Upd_agree h hi
  have hlt := lt_utf8ToUcs4Upd m (p + i)
  have hlt' := lt_utf8ToUcs4Upd m' (q + i)
  refine ⟨(utf8ToUcs4Upd m (p + i)).1, (utf8ToUcs4Upd m (p + i)).2 - p,
    (utf8ToUcs4Upd m' (q + i)).2 - q, ?_, ?_, ?_, by omega, by omega⟩
  · rw [add_sub_of_le (by omega)]
  · rw [add_sub_of_le (by omega), hc]
  · rcases hpos with ⟨k, -, hk, hk'⟩ | ⟨-, hge, hge'⟩
    · exact .inl (by omega)
    · exact .inr (by omega)

/-- The characters of a text do not depend on where it is. -/
theorem points_same (h : Same m p m' q len) (fuel : Nat) (hij : InStep len i j) :
    points m (p + len) fuel (p + i) = points m' (q + len) fuel (q + j) := by
  induction fuel generalizing i j with
  | zero => rfl
  | succ fuel ih =>
    rw [points, points]
    by_cases hi : i < len
    · obtain rfl := hij.eq hi
      obtain ⟨c, i', j', hdec, hdec', hstep, -, -⟩ := decode_same h hi
      rw [if_pos (by omega), if_pos (by omega), hdec, hdec', ih hstep]
    · have hj : ¬ j < len := fun hj => hi (hij.lt_iff.mpr hj)
      rw [if_neg (by omega), if_neg (by omega)]

end Copies

/-! ## Encoded characters -/

section Encoded

theorem and_masks : ∀ b < 256,
    (b &&& 0x80 = 0 ↔ b < 0x80) ∧ (b &&& 0xC0 = 0x80 ↔ 0x80 ≤ b ∧ b < 0xC0) ∧
    (b &&& 0xE0 = 0xC0 ↔ 0xC0 ≤ b ∧ b < 0xE0) ∧ (b &&& 0xF0 = 0xE0 ↔ 0xE0 ≤ b ∧ b < 0xF0) ∧
    (b &&& 0xF8 = 0xF0 ↔ 0xF0 ≤ b ∧ b < 0xF8) := by
  decide +kernel

variable {x b : Nat}

theorem low_bits (k : Nat) (hx : x < 2 ^ k) (hb : b % 2 ^ k = 0) : (x + b) &&& (2 ^ k - 1) = x := by
  rw [and_two_pow_sub_one_eq_mod, add_mod, hb, add_zero, mod_mod, mod_eq_of_lt hx]

theorem continuation_some (shift : Nat) {a : Nat} (hx : x < 64) (hb : (m p).toNat = x + 0x80) :
    continuation m shift (some (a <<< (6 + shift)), p) =
      (some ((a * 64 + x) <<< shift), p + 1) := by
  have hmask : (x + 0x80) &&& 0xC0 = 0x80 := (and_masks _ (by omega)).2.1.mpr (by omega)
  have hlow : (x + 0x80) &&& 0x3F = x := low_bits 6 hx rfl
  have hor : a <<< (6 + shift) ||| x <<< shift = (a * 64 + x) <<< shift := by
    rw [shiftLeft_add, ← shiftLeft_or_distrib, ← shiftLeft_add_eq_or_of_lt (show x < 2 ^ 6 from hx)]
    simp [shiftLeft_eq]
  simp only [continuation, hb, hmask, hlow, ne_eq, not_true_eq_false, if_false, ← hor]
  rfl

theorem first_one (h : (m p).toNat < 0x80) : utf8ToUcs4Upd m p = (some (m p).toNat, p + 1) := by
  have hmask := (and_masks _ (m p).toNat_lt).1.mpr h
  have hlow : (m p).toNat &&& 0x7F = (m p).toNat := low_bits (b := 0) 7 h rfl
  rw [utf8ToUcs4Upd, if_pos hmask, hlow]

theorem first_two (hx : x < 32) (h : (m p).toNat = x + 0xC0) :
    utf8ToUcs4Upd m p = continuation m 0 (some (x <<< 6), p + 1) := by
  obtain ⟨h1, -, h2, -⟩ := and_masks _ (m p).toNat_lt
  have hlow : (x + 0xC0) &&& 0x1F = x := low_bits 5 hx rfl
  rw [utf8ToUcs4Upd, if_neg (by omega), if_pos (by omega), h, hlow]

theorem first_three (hx : x < 16) (h : (m p).toNat = x + 0xE0) :
    utf8ToUcs4Upd m p = continuation m 0 (continuation m 6 (some (x <<< 12), p + 1)) := by
  obtain ⟨h1, -, h2, h3, -⟩ := and_masks _ (m p).toNat_lt
  have hlow : (x + 0xE0) &&& 0x0F = x := low_bits 4 hx rfl
  rw [utf8ToUcs4Upd, if_neg (by omega), if_neg (by omega), if_pos (by omega), h, hlow]

theorem first_four (hx : x < 8) (h : (m p).toNat = x + 0xF0) : utf8ToUcs4Upd m p =
      continuation m 0 (continuation m 6 (continuation m 12 (some (x <<< 18), p + 1))) := by
  obtain ⟨h1, -, h2, h3, h4⟩ := and_masks _ (m p).toNat_lt
  have hlow : (x + 0xF0) &&& 0x07 = x := low_bits 3 hx rfl
  rw [utf8ToUcs4Upd, if_neg (by omega), if_neg (by omega), if_neg (by omega), if_pos (by omega), h,
    hlow]

theorem byte_of_peek {n : Nat} {bs : List UInt8} (h : peek m p n = bs) (i : Nat) (hi : i < n)
    (hx : x < 256) (hbs : bs.getD i 0 = UInt8.ofNat x) : (m (p + i)).toNat = x := by
  rw [← getD_peek m p hi, h, hbs]
  exact mod_eq_of_lt hx

/-- The decoder gives back an encoded character, whatever stands behind it. -/
theorem utf8ToUcs4Upd_encode {c : Char}
    (h : peek m p (utf8EncodeChar c).length = utf8EncodeChar c) :
    utf8ToUcs4Upd m p = (some c.val.toNat, p + (utf8EncodeChar c).length) := by
  have hlt : c.val.toNat < 0x110000 := by
    have := c.valid
    omega
  revert h
  unfold utf8EncodeChar
  simp only
  split
  · intro h
    have h0 : (m p).toNat = _ := byte_of_peek h 0 (by simp) (by omega) rfl
    rw [first_one (by omega), h0]
    rfl
  split
  · intro h
    have h0 : (m p).toNat = _ := byte_of_peek h 0 (by simp) (by omega) rfl
    have h1 := byte_of_peek h 1 (by simp) (by omega) rfl
    rw [first_two (mod_lt _ (by decide)) h0, continuation_some 0 (mod_lt _ (by decide)) h1]
    refine Prod.ext (congrArg some ?_) rfl
    omega
  split
  · intro h
    have h0 : (m p).toNat = _ := byte_of_peek h 0 (by simp) (by omega) rfl
    have h1 := byte_of_peek h 1 (by simp) (by omega) rfl
    have h2 := byte_of_peek h 2 (by simp) (by omega) rfl
    rw [first_three (mod_lt _ (by decide)) h0, continuation_some 6 (mod_lt _ (by decide)) h1,
      continuation_some 0 (mod_lt _ (by decide)) h2]
    refine Prod.ext (congrArg some ?_) rfl
    omega
  · intro h
    have h0 : (m p).toNat = _ := byte_of_peek h 0 (by simp) (by omega) rfl
    have h1 := byte_of_peek h 1 (by simp) (by omega) rfl
    have h2 := byte_of_peek h 2 (by simp) (by omega) rfl
    have h3 := byte_of_peek h 3 (by simp) (by omega) rfl
    rw [first_four (mod_lt _ (by decide)) h0, continuation_some 12 (mod_lt _ (by decide)) h1,
      continuation_some 6 (mod_lt _ (by decide)) h2,
      continuation_some 0 (mod_lt _ (by decide)) h3]
    refine Prod.ext (congrArg some ?_) rfl
    omega

theorem ofNat_or {x y : Nat} (k a : Nat) (hx : x < 2 ^ k) (hy : (2 ^ k * a + x) % 256 = y % 256) :
    UInt8.ofNat (2 ^ k * a ||| x) = UInt8.ofNat y := by
  rw [← two_pow_add_eq_or_of_lt hx]
  exact UInt8.toNat_inj.1 (by simpa using hy)

/-- The encoder agrees with that of the standard library. -/
theorem ucs4ToUtf8_eq (c : Char) : ucs4ToUtf8 c.val.toNat = utf8EncodeChar c := by
  have hlt : c.val.toNat < 0x110000 := by
    have := c.valid
    omega
  have hnext : ∀ x, UInt8.ofNat (0x80 ||| x &&& 0x3F) = UInt8.ofNat (x % 64 + 0x80) := fun x => by
    rw [and_two_pow_sub_one_eq_mod x 6]
    exact ofNat_or 6 2 (mod_lt x (by decide)) (by omega)
  simp only [ucs4ToUtf8, utf8EncodeChar, ← Nat.lt_succ_iff]
  generalize c.val.toNat = v at hlt
  simp only [hnext, shiftRight_eq_div_pow v]
  split
  · rfl
  split
  · rw [← ofNat_or 5 62 (x := v / 64) (y := v / 64 % 32 + 0xC0) (by omega) (by omega)]
    simp [range_succ]
  split
  · rw [← ofNat_or 4 62 (x := v / 4096) (y := v / 4096 % 16 + 0xE0) (by omega) (by omega)]
    simp [range_succ]
  · rw [← ofNat_or 3 62 (x := v / 262144) (y := v / 262144 % 8 + 0xF0) (by omega) (by omega)]
    simp [range_succ]

end Encoded

/-- The bytes of a text, one character behind the other. -/
def encode (text : List Char) : List UInt8 := text.flatMap fun c => ucs4ToUtf8 c.val.toNat

theorem points_encode (text : List Char) (h : peek m p (encode text).length = encode text) :
    points m (p + (encode text).length) (encode text).length p =
      text.map fun c => some c.val.toNat := by
  induction text generalizing p with
  | nil => rfl
  | cons c text ih =>
    have hc : encode (c :: text) = utf8EncodeChar c ++ encode text := by
      rw [encode, flatMap_cons, ucs4ToUtf8_eq]; rfl
    rw [hc, List.length_append] at h ⊢
    obtain ⟨h1, h2⟩ := append_inj (peek_add m p _ _ ▸ h) (peek_length ..)
    have hlt := lt_utf8ToUcs4Upd m p
    have hcons := @points_cons m p (p + ((utf8EncodeChar c).length + (encode text).length))
    rw [utf8ToUcs4Upd_encode h1] at hlt hcons
    simp only [Nat.add_sub_cancel_left] at hlt hcons
    rw [hcons (by omega), ← Nat.add_assoc, Nat.add_sub_cancel_left, ih h2]
    rfl

/-- **UTF-8 round trip.** A text of any characters that `ucs4_to_utf8` has stored one behind the
other is what `utf8_to_ucs4_upd` reads there. -/
theorem text_round_trip (m : Buf) (p : Nat) (text : List Char) :
    points (poke m p (encode text)) (p + (encode text).length) (encode text).length p =
      text.map fun c => some c.val.toNat :=
  points_encode text (peek_poke_self ..)

end Dgos.L1.Utf8
