import Mathlib

/-!
# Little-endian stores into a byte memory

A memory gives a byte for every 64-bit address. A store writes the low `size` bytes of a word at
a place; addresses wrap. Stores whose places do not overlap can be read back, and every other
byte is as it was.

A word fits a field when its low bytes, extended with or without sign, are the word again. Two
words that fit and have the same low bytes are equal.
-/
namespace Dgos

open List

abbrev ByteMem := BitVec 64 → BitVec 8

structure ByteStore where
  place : BitVec 64
  size : Nat
  value : BitVec 64
  deriving DecidableEq, Repr

open ByteStore

namespace ByteStore

/-- The address is one of those the store writes. -/
def Covers (s : ByteStore) (a : BitVec 64) : Prop := (a - s.place).toNat < s.size

instance (s : ByteStore) (a : BitVec 64) : Decidable (s.Covers a) :=
  inferInstanceAs (Decidable (_ < _))

/-- Byte `i` of the value. -/
def byte (v : BitVec 64) (i : Nat) : BitVec 8 := v.extractLsb' (8 * i) 8

def run (s : ByteStore) (m : ByteMem) : ByteMem := fun a =>
  if s.Covers a then byte s.value (a - s.place).toNat else m a

def runAll (l : List ByteStore) (m : ByteMem) : ByteMem := l.foldl (fun m s => s.run m) m

/-- No address is written by both. -/
def Apart (s t : ByteStore) : Prop := ∀ a, s.Covers a → ¬ t.Covers a

variable {m : ByteMem} {l : List ByteStore} {s : ByteStore} {a : BitVec 64}

theorem runAll_of_not_covers (h : ∀ s ∈ l, ¬ s.Covers a) : runAll l m a = m a := by
  induction l generalizing m with
  | nil => rfl
  | cons s l ih =>
    have hs := h s mem_cons_self
    rw [runAll, foldl_cons]
    refine (ih fun t ht => h t (mem_cons_of_mem s ht)).trans ?_
    rw [run, if_neg hs]

theorem runAll_of_covers (hl : l.Pairwise Apart) (hs : s ∈ l) (ha : s.Covers a) :
    runAll l m a = byte s.value (a - s.place).toNat := by
  induction l generalizing m with
  | nil => cases hs
  | cons t l ih =>
    obtain ⟨ht, hl⟩ := pairwise_cons.1 hl
    rw [runAll, foldl_cons]
    rcases mem_cons.1 hs with rfl | hs
    · refine (runAll_of_not_covers fun u hu => ht u hu a ha).trans ?_
      rw [run, if_pos ha]
    · exact ih hl hs

theorem covers_add {i : Nat} (hi : i < s.size) (h64 : s.size ≤ 2 ^ 64) :
    s.Covers (s.place + BitVec.ofNat 64 i) ∧ (s.place + BitVec.ofNat 64 i - s.place).toNat = i := by
  have he : s.place + BitVec.ofNat 64 i - s.place = BitVec.ofNat 64 i := by
    rw [BitVec.add_comm, BitVec.add_sub_cancel]
  have hn : (s.place + BitVec.ofNat 64 i - s.place).toNat = i := by
    rw [he, BitVec.toNat_ofNat, Nat.mod_eq_of_lt (by omega)]
  exact ⟨by rwa [Covers, hn], hn⟩

end ByteStore

/-! ## Fields -/

/-- A field of bytes that is read back with or without sign. -/
structure ByteField where
  size : Nat
  signed : Bool
  deriving DecidableEq, Repr

namespace ByteField

/-- The low bytes of the word, extended again. -/
def cut (f : ByteField) (v : BitVec 64) : BitVec 64 :=
  if f.signed then (v.setWidth (8 * f.size)).signExtend 64
  else (v.setWidth (8 * f.size)).setWidth 64

def Fits (f : ByteField) (v : BitVec 64) : Prop := f.cut v = v

instance (f : ByteField) (v : BitVec 64) : Decidable (f.Fits v) :=
  inferInstanceAs (Decidable (_ = _))

variable {f : ByteField} {v w : BitVec 64}

theorem setWidth_eq_of_bytes (h : ∀ i < f.size, byte v i = byte w i) :
    v.setWidth (8 * f.size) = w.setWidth (8 * f.size) := by
  refine BitVec.eq_of_getLsbD_eq fun j hj => ?_
  have hb := congrArg (·.getLsbD (j % 8)) (h (j / 8) (by omega))
  have hj' : 8 * (j / 8) + j % 8 = j := by omega
  simpa [byte, hj, hj', Nat.mod_lt] using hb

/-- A word that fits is known by its bytes. -/
theorem eq_of_bytes (hv : f.Fits v) (hw : f.Fits w)
    (h : ∀ i < f.size, byte v i = byte w i) : v = w := by
  rw [← hv, ← hw, cut, cut, setWidth_eq_of_bytes h]

end ByteField

end Dgos
