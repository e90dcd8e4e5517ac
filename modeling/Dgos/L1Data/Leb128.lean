import Dgos.Core.Bytes

/-!
# `decode_sleb128` (kernel/lib/uleb.cc)

A signed LEB128 encoding has seven bits of the number in each byte, the lowest first. Every byte
but the last has bit 7, and bit 6 of the last byte is the sign. The loop of `decode_sleb128` ends
only at a byte that has bit 6 and not bit 7, and sets the bits from the last group on, not those
behind it.

Results:
* `sleb_right_iff`: an encoding of a 64-bit number in at most ten bytes is decoded exactly if its
  last byte is `0x7F`.
-/
namespace Dgos.L1.Leb128

open BitVec Nat Option
open BitVec (ofNat allOnes ofInt toInt)

/-- `uintptr_t(byte & 0x7F) << shift`; the processor shifts by the amount modulo 64. -/
def group (byte shift : Nat) : BitVec 64 := BitVec.ofNat 64 (byte &&& 0x7F) <<< (shift % 64)

/-- mirrors uleb.cc:22-31 -/
def sleb128Loop (mem : Buf) : Nat → Nat → BitVec 64 → Nat → Option (BitVec 64 × Nat)
  | 0, _, _, _ => none
  | fuel + 1, p, result, shift =>
    let byte := (mem p).toNat
    let result := result ||| group byte shift
    if byte &&& 0x80 = 0 ∧ byte &&& 0x40 ≠ 0 then
      some (if shift < 64 then result ||| BitVec.allOnes 64 <<< shift else result, p + 1)
    else sleb128Loop mem fuel (p + 1) result ((shift + 7) % 256)

/-- The number and the pointer behind it; mirrors uleb.cc:18-33 -/
def decodeSleb128 (fuel : Nat) (mem : Buf) (p : Nat) : Option (BitVec 64 × Nat) :=
  sleb128Loop mem fuel p 0 0

/-- The number that an encoding is of. -/
def slebValue : List UInt8 → Option Int
  | [] => none
  | b :: rest =>
    if b.toNat < 0x80 then
      if rest = [] then some (if b.toNat < 0x40 then b.toNat else b.toNat - 0x80) else none
    else (slebValue rest).map fun n => b.toNat - 0x80 + 0x80 * n

/-- The decoder returns the number, with the pointer behind the encoding. -/
def DecodeRight (mem : Buf) (p : Nat) (e : List UInt8) (n : Int) : Prop :=
  ∃ fuel, decodeSleb128 fuel mem p = some (.ofInt 64 n, p + e.length)

variable {mem : Buf} {p a s : Nat} {x : BitVec 64 × Nat}

theorem loop_pos {fuel : Nat} {r : BitVec 64} (h : sleb128Loop mem fuel p r s = some x) :
    p < x.2 := by
  induction fuel generalizing p r s with
  | zero => cases h
  | succ fuel ih =>
    rw [sleb128Loop] at h
    split at h
    · cases h
      exact lt_succ_self p
    · exact lt_of_succ_lt (ih h)

theorem and_masks : ∀ b < 256, b &&& 0x7F = b % 0x80 ∧
    (b &&& 0x80 = 0 ∧ b &&& 0x40 ≠ 0 ↔ 0x40 ≤ b ∧ b < 0x80) := by
  decide +kernel

theorem or_group (x : Nat) (ha : a < 2 ^ s) :
    ofNat 64 a ||| ofNat 64 x <<< s = ofNat 64 (a + x * 2 ^ s) := by
  have hx : ofNat 64 x <<< s = ofNat 64 (x <<< s) := by
    apply BitVec.eq_of_toNat_eq
    simp [Nat.shiftLeft_eq]
  rw [hx, BitVec.or_comm, ← BitVec.ofNat_or, ← shiftLeft_add_eq_or_of_lt ha,
    Nat.shiftLeft_eq, Nat.add_comm]

section

variable (hs : s < 64) (ha : a < 2 ^ s)
include hs ha

theorem exists_loop : (∃ fuel, sleb128Loop mem fuel p (ofNat 64 a) s = some x) ↔
    if 0x40 ≤ (mem p).toNat ∧ (mem p).toNat < 0x80 then
      (ofInt 64 (a - (2 ^ s : Nat)), p + 1) = x
    else ∃ fuel, sleb128Loop mem fuel (p + 1)
      (ofNat 64 (a + (mem p).toNat % 0x80 * 2 ^ s)) (s + 7) = some x := by
  have hsucc : (∃ fuel, sleb128Loop mem fuel p (ofNat 64 a) s = some x) ↔
      ∃ fuel, sleb128Loop mem (fuel + 1) p (ofNat 64 a) s = some x := by
    refine ⟨fun ⟨fuel, h⟩ => ?_, fun ⟨fuel, h⟩ => ⟨fuel + 1, h⟩⟩
    cases fuel with
    | zero => cases h
    | succ fuel => exact ⟨fuel, h⟩
  obtain ⟨hlow, hstop⟩ := and_masks (mem p).toNat (mem p).toNat_lt
  have hgroup : ofNat 64 a ||| group (mem p).toNat s =
      ofNat 64 (a + (mem p).toNat % 0x80 * 2 ^ s) := by
    rw [group, mod_eq_of_lt hs, hlow, or_group _ ha]
  -- the sign covers the last group
  have hsign : ofNat 64 (a + (mem p).toNat % 0x80 * 2 ^ s) ||| allOnes 64 <<< s =
      ofInt 64 (a - (2 ^ s : Nat)) := by
    rw [← hgroup, BitVec.or_assoc, group, mod_eq_of_lt hs, ← BitVec.shiftLeft_or_distrib,
      or_allOnes, show allOnes 64 = ofNat 64 (2 ^ 64 - 1) by rfl,
      or_group _ ha]
    apply BitVec.eq_of_toNat_eq
    rw [toNat_ofNat, toNat_ofInt]
    omega
  rw [hsucc]
  simp only [sleb128Loop, hstop, hgroup, hsign, if_pos hs, mod_eq_of_lt (show s + 7 < 256 by omega)]
  split
  · rw [exists_const, some.injEq]
  · rfl

end

/-- The decoder in the middle of an encoding, with the bits in front of it in `a`. -/
theorem loop_right_iff {e : List UInt8} {n : Int} (he : slebValue e = some n)
    (hmem : peek mem p e.length = e) (ha : a < 2 ^ s) (hs : s + 7 * e.length ≤ 70)
    (hlo : -2 ^ 63 ≤ a + n * (2 ^ s : Nat)) (hhi : a + n * (2 ^ s : Nat) < 2 ^ 63) :
    (∃ fuel, sleb128Loop mem fuel p (ofNat 64 a) s =
        some (ofInt 64 (a + n * (2 ^ s : Nat)), p + e.length)) ↔
      e.getLast? = some 0x7F := by
  induction e generalizing p a s n with
  | nil => cases he
  | cons b rest ih =>
    rw [List.length_cons] at hmem hs ⊢
    rw [Nat.add_comm, peek_add] at hmem
    obtain ⟨hb, hrest⟩ : mem p = b ∧ peek mem (p + 1) rest.length = rest := List.cons.inj hmem
    have hs64 : s < 64 := by omega
    rw [slebValue] at he
    rw [exists_loop hs64 ha, hb]
    split at he
    · obtain ⟨rfl, he⟩ := ite_none_right_eq_some.1 he
      rw [List.getLast?_singleton, some.injEq,
        show b = 0x7F ↔ b.toNat = 0x7F from UInt8.toNat_inj.symm]
      have hle : 2 ^ s ≤ 2 ^ 63 := Nat.pow_le_pow_right (by decide) (by omega)
      split
      · rw [if_neg (show ¬ b.toNat < 0x40 by omega)] at he
        cases he
        rw [Prod.mk.injEq, and_iff_left (by rfl)]
        constructor
        · intro h
          have hint := congrArg toInt h
          rw [toInt_ofInt_eq_self (by decide) (by omega) (by omega),
            toInt_ofInt_eq_self (by decide) hlo hhi] at hint
          have hone : (-1 : Int) * (2 ^ s : Nat) = (b.toNat - 0x80) * (2 ^ s : Nat) := by omega
          have := Int.eq_of_mul_eq_mul_right (by omega) hone
          omega
        · intro h
          rw [h]
          congr 1
          omega
      · refine iff_of_false (fun ⟨fuel, h⟩ => ?_) ?_
        · exact absurd (loop_pos h) (lt_irrefl _)
        · omega
    · obtain ⟨n', hn', rfl⟩ := map_eq_some_iff.1 he
      have hnext : (a : Int) + (b.toNat - 0x80 + 0x80 * n') * (2 ^ s : Nat) =
          (a + b.toNat % 0x80 * 2 ^ s : Nat) + n' * (2 ^ (s + 7) : Nat) := by
        have := b.toNat_lt
        rw [show b.toNat % 0x80 = b.toNat - 0x80 by omega]
        push_cast [show 0x80 ≤ b.toNat by omega]
        ring
      rw [hnext] at hlo hhi ⊢
      have hlt : a + b.toNat % 0x80 * 2 ^ s < 2 ^ (s + 7) := by
        have : b.toNat % 0x80 * 2 ^ s ≤ 0x7F * 2 ^ s := mul_le_mul_right _ (by omega)
        rw [pow_add]
        omega
      rw [if_neg (by omega), Nat.add_comm rest.length, ← add_assoc,
        ih hn' hrest hlt (by omega) hlo hhi]
      cases rest with
      | nil => cases hn'
      | cons c rest => rfl

/-- Encodings of 64-bit numbers, minimal or padded, with any bytes behind them. -/
theorem sleb_right_iff (mem : Buf) (p : Nat) {e : List UInt8} {n : Int}
    (he : slebValue e = some n) (hlen : e.length ≤ 10) (hlo : -2 ^ 63 ≤ n) (hhi : n < 2 ^ 63)
    (hmem : peek mem p e.length = e) : DecodeRight mem p e n ↔ e.getLast? = some 0x7F := by
  have hn : ((0 : Nat) : Int) + n * (2 ^ 0 : Nat) = n := by simp
  have h := loop_right_iff (a := 0) (s := 0) he hmem (by decide) (by omega)
    (by rw [hn]; exact hlo) (by rw [hn]; exact hhi)
  rwa [hn] at h

theorem sleb_right_minus_one : slebValue [0xFF, 0x7F] = some (-1) ∧
    DecodeRight (fun i => if i = 0 then 0xFF else 0x7F) 0 [0xFF, 0x7F] (-1) :=
  ⟨by decide, (sleb_right_iff _ 0 (by decide) (by decide) (by decide) (by decide) (by decide)).2
    (by decide)⟩

/-- The number 5 and a byte behind it: both bytes are read, as -123. -/
theorem positive_read_on : slebValue [0x05] = some 5 ∧
    decodeSleb128 2 (fun i => if i = 0 then 0x05 else 0x7F) 0 =
      some (BitVec.ofInt 64 (-123), 2) := by
  decide

end Dgos.L1.Leb128
