import Mathlib

/-!
# Packets of the GDB remote serial protocol

A packet is `$`, a body, `#` and two hexadecimal digits for the sum of the bytes of the body.
In the body `}` and a byte stand for that byte with bit 5 changed, and `*` and a count character
stand for more copies of the byte in front of them, 29 fewer than the character's value. A
receiver checks the sum, expands the runs and then removes the escapes.

`Tok` is what a sender makes a body of: single bytes, escaped bytes and runs. `decode_packet`
says that a receiver gets the text of the tokens back.
-/
namespace Dgos.RemoteSerial

open List Option
open UInt8 (ofNat)

def dollar : UInt8 := 0x24
def pound : UInt8 := 0x23
def star : UInt8 := 0x2a
def brace : UInt8 := 0x7d

def checksum (body : List UInt8) : UInt8 := body.foldl (· + ·) 0

/-! ## Hexadecimal digits -/

def hexDigit (n : Nat) : UInt8 := if n < 10 then UInt8.ofNat (48 + n) else UInt8.ofNat (87 + n)

def hexValue (c : UInt8) : Option Nat :=
  if 48 ≤ c ∧ c ≤ 57 then some (c.toNat - 48)
  else if 65 ≤ c ∧ c ≤ 70 then some (c.toNat - 55)
  else if 97 ≤ c ∧ c ≤ 102 then some (c.toNat - 87)
  else none

theorem hexValue_hexDigit {n : Nat} (h : n < 16) : hexValue (hexDigit n) = some n := by
  have : ∀ n : Fin 16, hexValue (hexDigit n) = some n.1 := by decide
  exact this ⟨n, h⟩

/-- The value of two digits. -/
def hexByte (h l : UInt8) : Option Nat :=
  match hexValue h, hexValue l with
  | some a, some b => some (a * 16 + b)
  | _, _ => none

theorem hexByte_hexDigit (n : Nat) (h : n < 256) :
    hexByte (hexDigit (n / 16)) (hexDigit (n % 16)) = some n := by
  rw [hexByte, hexValue_hexDigit (by omega), hexValue_hexDigit (by omega)]
  simp only [some.injEq]
  omega

/-! ## The receiver -/

/-- The runs expanded; `last` is the byte in front. -/
def expand : Option UInt8 → List UInt8 → Option (List UInt8)
  | _, [] => some []
  | last, c :: rest =>
    if c = star then
      match last, rest with
      | some b, n :: rest =>
        if 32 ≤ n ∧ n ≤ 126 then
          (expand (some b) rest).map (List.replicate (n.toNat - 29) b ++ ·)
        else none
      | _, _ => none
    else (expand (some c) rest).map (c :: ·)

/-- The escapes removed. -/
def unescape : List UInt8 → Option (List UInt8)
  | [] => some []
  | c :: rest =>
    if c = brace then
      match rest with
      | x :: rest => (unescape rest).map ((x ^^^ 0x20) :: ·)
      | [] => none
    else (unescape rest).map (c :: ·)

/-- The count characters of a body. -/
def counts : List UInt8 → List UInt8
  | [] => []
  | c :: rest =>
    if c = star then
      match rest with
      | n :: rest => n :: counts rest
      | [] => []
    else counts rest

section Equations

variable {c n : UInt8} {rest : List UInt8}

theorem expand_plain (h : c ≠ star) (last : Option UInt8) :
    expand last (c :: rest) = (expand (some c) rest).map (c :: ·) := by
  rw [expand.eq_def]
  simp [if_neg h]

theorem expand_star (h : 32 ≤ n ∧ n ≤ 126) : expand (some c) (star :: n :: rest) =
      (expand (some c) rest).map (List.replicate (n.toNat - 29) c ++ ·) := by
  rw [expand.eq_def]
  simp [if_pos h]

theorem unescape_plain (h : c ≠ brace) : unescape (c :: rest) = (unescape rest).map (c :: ·) := by
  rw [unescape.eq_def]
  simp [if_neg h]

theorem unescape_brace :
    unescape (brace :: c :: rest) = (unescape rest).map ((c ^^^ 0x20) :: ·) := by
  rw [unescape.eq_def]
  simp

theorem counts_plain (h : c ≠ star) : counts (c :: rest) = counts rest := by
  rw [counts.eq_def]
  simp [if_neg h]

theorem counts_star : counts (star :: n :: rest) = n :: counts rest := by
  rw [counts.eq_def]
  simp

end Equations

/-- What a receiver makes of a sequence of bytes that should be one packet. -/
def decode : List UInt8 → Option (List UInt8)
  | [] => none
  | d :: rest =>
    let body := rest.takeWhile (· ≠ pound)
    match rest.dropWhile (· ≠ pound) with
    | [_, h, l] =>
      if d = dollar ∧ dollar ∉ body ∧ hexByte h l = some (checksum body).toNat then
        (expand none body).bind unescape
      else none
    | _ => none

/-! ## The sender -/

/-- The packet for a body. -/
def packet (body : List UInt8) : List UInt8 :=
  dollar :: (body ++ [pound, hexDigit ((checksum body).toNat / 16),
    hexDigit ((checksum body).toNat % 16)])

inductive Tok where
  | lit (c : UInt8)
  | esc (c : UInt8)
  | run (c : UInt8) (count : Nat)

def Tok.code : Tok → List UInt8
  | .lit c => [c]
  | .esc c => [brace, c ^^^ 0x20]
  | .run c count => [c, star, UInt8.ofNat (count + 28)]

def Tok.text : Tok → List UInt8
  | .lit c => [c]
  | .esc c => [c]
  | .run c count => List.replicate count c

/-- The byte stands for itself. -/
def Plain (c : UInt8) : Prop := c ≠ dollar ∧ c ≠ pound ∧ c ≠ star ∧ c ≠ brace

/-- A run of a plain byte has a count character a receiver takes. -/
def Tok.Ok : Tok → Prop
  | .lit c => Plain c
  | .esc c => c ^^^ 0x20 ≠ dollar ∧ c ^^^ 0x20 ≠ pound ∧ c ^^^ 0x20 ≠ star
  | .run c count => Plain c ∧ 4 ≤ count ∧ count ≤ 98 ∧ count ≠ 7 ∧ count ≠ 8

theorem toNat_countChar {count : Nat} (h : count ≤ 98) :
    (ofNat (count + 28)).toNat = count + 28 := by
  rw [UInt8.toNat_ofNat', Nat.mod_eq_of_lt (by omega)]

theorem unescape_replicate {c : UInt8} (h : c ≠ brace) (n : Nat) (l : List UInt8) :
    unescape (List.replicate n c ++ l) = (unescape l).map (List.replicate n c ++ ·) := by
  induction n with
  | zero => simp
  | succ n ih =>
    rw [replicate_succ, cons_append, unescape_plain h, ih, Option.map_map]
    rfl

theorem decode_tok {t : Tok} (ht : t.Ok) {body text : List UInt8} (last : Option UInt8)
    (h : ∀ last, (expand last body).bind unescape = some text) :
    (expand last (t.code ++ body)).bind unescape = some (t.text ++ text) := by
  cases t with
  | lit c =>
    obtain ⟨-, -, hs, hb⟩ := ht
    obtain ⟨x, hx, hu⟩ := bind_eq_some_iff.1 (h (some c))
    simp [Tok.code, Tok.text, expand_plain hs, hx, unescape_plain hb, hu]
  | esc c =>
    obtain ⟨-, -, hs⟩ := ht
    obtain ⟨x, hx, hu⟩ := bind_eq_some_iff.1 (h (some (c ^^^ 0x20)))
    have hbs : brace ≠ star := by decide
    have hxor : c ^^^ 0x20 ^^^ 0x20 = c := by
      rw [UInt8.xor_assoc, UInt8.xor_self, UInt8.xor_zero]
    simp [Tok.code, Tok.text, expand_plain hbs, expand_plain hs, hx, unescape_brace, hu, hxor]
  | run c count =>
    obtain ⟨⟨-, -, hs, hb⟩, h4, h98, -, -⟩ := ht
    obtain ⟨x, hx, hu⟩ := bind_eq_some_iff.1 (h (some c))
    have hn := toNat_countChar h98
    have hin : 32 ≤ ofNat (count + 28) ∧ ofNat (count + 28) ≤ 126 := by
      simp only [UInt8.le_iff_toNat_le, hn]
      exact ⟨by show 32 ≤ _; omega, by show _ ≤ 126; omega⟩
    have hrep : List.replicate count c = c :: List.replicate (count + 28 - 29) c := by
      rw [← replicate_succ]
      congr 1
      omega
    simp only [Tok.code, Tok.text, cons_append, nil_append, expand_plain hs,
      expand_star hin, hx, hn, map_some, bind_some, unescape_plain hb,
      unescape_replicate hb, hu, hrep]

variable {ts : List Tok}

theorem decode_toks (h : ∀ t ∈ ts, t.Ok) (last : Option UInt8) :
    (expand last (ts.flatMap Tok.code)).bind unescape = some (ts.flatMap Tok.text) := by
  induction ts generalizing last with
  | nil => rfl
  | cons t ts ih =>
    exact decode_tok (h t mem_cons_self) last fun last =>
      ih (fun u hu => h u (mem_cons_of_mem _ hu)) last

/-- No token writes a character that frames packets. -/
theorem Tok.Ok.code_ne {t : Tok} (ht : t.Ok) {c : UInt8} (hc : c ∈ t.code) :
    c ≠ dollar ∧ c ≠ pound := by
  cases t with
  | lit d =>
    obtain rfl := mem_singleton.1 hc
    exact ⟨ht.1, ht.2.1⟩
  | esc d =>
    simp only [Tok.code, mem_cons, not_mem_nil, or_false] at hc
    rcases hc with rfl | rfl
    · decide
    · exact ⟨ht.1, ht.2.1⟩
  | run d count =>
    obtain ⟨hp, h4, h98, h7, h8⟩ := ht
    simp only [Tok.code, mem_cons, not_mem_nil, or_false] at hc
    rcases hc with rfl | rfl | rfl
    · exact ⟨hp.1, hp.2.1⟩
    · decide
    · have hn := toNat_countChar h98
      constructor
      · intro he
        rw [he] at hn
        change 36 = count + 28 at hn
        omega
      · intro he
        rw [he] at hn
        change 35 = count + 28 at hn
        omega

theorem decode_packet (h : ∀ t ∈ ts, t.Ok) :
    decode (packet (ts.flatMap Tok.code)) = some (ts.flatMap Tok.text) := by
  have hne : ∀ c ∈ ts.flatMap Tok.code, c ≠ dollar ∧ c ≠ pound := by
    intro c hc
    obtain ⟨t, ht, hct⟩ := mem_flatMap.1 hc
    exact (h t ht).code_ne hct
  generalize hbody : ts.flatMap Tok.code = body at hne
  have htake : ∀ rest : List UInt8, (body ++ pound :: rest).takeWhile (· ≠ pound) = body := by
    intro rest
    rw [takeWhile_append_of_pos (fun c hc => by simp [(hne c hc).2])]
    simp
  have hdrop : ∀ rest : List UInt8,
      (body ++ pound :: rest).dropWhile (· ≠ pound) = pound :: rest := by
    intro rest
    rw [dropWhile_append_of_pos (fun c hc => by simp [(hne c hc).2])]
    simp
  have hdollar : dollar ∉ body := fun hd => (hne _ hd).1 rfl
  simp only [packet, decode, htake, hdrop]
  rw [if_pos ⟨trivial, hdollar, hexByte_hexDigit _ (checksum body).toNat_lt⟩, ← hbody]
  exact decode_toks h none

/-- The count characters of a body are those of its runs. -/
theorem counts_toks (h : ∀ t ∈ ts, t.Ok) : counts (ts.flatMap Tok.code) =
      ts.flatMap fun t => match t with
        | .run _ count => [ofNat (count + 28)]
        | _ => [] := by
  induction ts with
  | nil => rfl
  | cons t ts ih =>
    have ih := ih fun u hu => h u (mem_cons_of_mem _ hu)
    have ht := h t mem_cons_self
    rw [flatMap_cons, flatMap_cons, ← ih]
    cases t with
    | lit c => simp [Tok.code, counts_plain ht.2.2.1]
    | esc c => simp [Tok.code, counts_plain ht.2.2, counts_plain (show brace ≠ star by decide)]
    | run c count => simp [Tok.code, counts_plain ht.1.2.2.1, counts_star]

end Dgos.RemoteSerial
