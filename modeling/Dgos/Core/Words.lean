import Mathlib

/-!
# Slices and little endian words of byte strings

`slice l ofs n` is the `n` bytes at offset `ofs`. `readU16 l ofs` is the little endian 16-bit
word there; `words ws` is the byte string of a list of such words. Reads are stated for a
string with arbitrary bytes before and behind, so that records can be read wherever they lie.
-/
namespace Dgos

open List

def slice {α : Type} (l : List α) (ofs n : Nat) : List α := (l.drop ofs).take n

variable {ofs : Nat}

section Slice

variable {α : Type} {l : List α} {n : Nat}

theorem slice_append {pre : List α} (ofs n : Nat) :
    slice (pre ++ l) (pre.length + ofs) n = slice l ofs n := by
  rw [slice, ← drop_drop, drop_left, slice]

theorem slice_append_left {suf : List α} (h : ofs + n ≤ l.length) :
    slice (l ++ suf) ofs n = slice l ofs n := by
  rw [slice, slice, drop_append_of_le_length (by omega), take_append_of_le_length]
  rw [length_drop]
  omega

theorem slice_mid (pre mid suf : List α) :
    slice (pre ++ (mid ++ suf)) pre.length mid.length = mid := by
  rw [slice, drop_left, take_left]

theorem slice_take_drop (pre mid suf : List α) (h : ofs + n ≤ mid.length) :
    slice (pre ++ (mid ++ suf)) (pre.length + ofs) n = slice mid ofs n := by
  rw [slice_append, slice_append_left h]

theorem slice_clip (l : List α) (ofs n : Nat) :
    slice l ofs (min (l.length - ofs) n) = slice l ofs n := by
  rw [slice, slice, ← length_drop, Nat.min_comm, ← take_take, take_length]

theorem slice_of_length_le (h : l.length ≤ ofs) (n : Nat) : slice l ofs n = [] := by
  rw [slice, drop_eq_nil_of_le h, take_nil]

end Slice

/-- The 16-bit word at offset `ofs`. -/
def readU16 (l : List UInt8) (ofs : Nat) : Nat :=
  (l.getD ofs 0).toNat + 2 ^ 8 * (l.getD (ofs + 1) 0).toNat

def word (w : Nat) : List UInt8 := [UInt8.ofNat w, UInt8.ofNat (w / 2 ^ 8)]

def words (ws : List Nat) : List UInt8 := ws.flatMap word

@[simp] theorem length_words (ws : List Nat) : (words ws).length = 2 * ws.length := by
  induction ws with
  | nil => rfl
  | cons w ws ih =>
    rw [words, flatMap_cons, length_append, ← words]
    simp only [word, length_cons, length_nil]
    omega

theorem readU16_append (pre l : List UInt8) (ofs : Nat) :
    readU16 (pre ++ l) (pre.length + ofs) = readU16 l ofs := by
  simp [readU16, getElem?_append_right, Nat.add_assoc]

theorem readU16_append_left {l : List UInt8} (h : ofs + 2 ≤ l.length)
    (suf : List UInt8) : readU16 (l ++ suf) ofs = readU16 l ofs := by
  have h0 : ofs < l.length := by omega
  have h1 : ofs + 1 < l.length := by omega
  simp [readU16, getElem?_append_left h0, getElem?_append_left h1]

theorem readU16_word {w : Nat} (hw : w < 2 ^ 16) (suf : List UInt8) :
    readU16 (word w ++ suf) 0 = w := by
  simp only [readU16, word, cons_append, nil_append, getD_cons_zero,
    getD_cons_succ, UInt8.toNat_ofNat']
  omega

theorem readU16_lt (l : List UInt8) (ofs : Nat) : readU16 l ofs < 2 ^ 16 := by
  have h0 := (l.getD ofs 0).toNat_lt
  have h1 := (l.getD (ofs + 1) 0).toNat_lt
  rw [readU16]
  omega

/-- Word `k` of a record, with anything before and behind it. -/
theorem readU16_words {ws : List Nat} (hws : ∀ w ∈ ws, w < 2 ^ 16) (pre suf : List UInt8)
    {k : Nat} (hk : k < ws.length) :
    readU16 (pre ++ (words ws ++ suf)) (pre.length + 2 * k) = ws[k] := by
  rw [readU16_append]
  induction ws generalizing k with
  | nil => cases hk
  | cons w ws ih =>
    cases k with
    | zero => exact readU16_word (hws w mem_cons_self) _
    | succ k =>
      exact ih (fun w' hw' => hws w' (mem_cons_of_mem w hw')) (Nat.lt_of_succ_lt_succ hk)

end Dgos
