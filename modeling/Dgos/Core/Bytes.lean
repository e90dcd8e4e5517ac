import Mathlib

/-!
# Byte buffers

A buffer is a function from offsets to bytes. `poke m off bs` is
`memcpy(m + off, bs, len)`, `peek m off n` reads `n` bytes from `off`.
-/
namespace Dgos

open List

abbrev Buf := Nat → UInt8

def peek (m : Buf) (off n : Nat) : List UInt8 := (List.range n).map fun i => m (off + i)

def poke (m : Buf) (off : Nat) (bs : List UInt8) : Buf := fun i =>
  if off ≤ i ∧ i < off + bs.length then bs.getD (i - off) 0 else m i

@[simp] theorem peek_length (m : Buf) (off n : Nat) : (peek m off n).length = n := by
  simp [peek]

@[simp] theorem peek_zero (m : Buf) (off : Nat) : peek m off 0 = [] := rfl

theorem peek_add (m : Buf) (off a b : Nat) :
    peek m off (a + b) = peek m off a ++ peek m (off + a) b := by
  simp only [peek, range_add, map_append, map_map, append_cancel_left_eq]
  apply map_congr_left
  simp [Nat.add_assoc]

variable {m m' : Buf} {off n i : Nat} {bs : List UInt8}

theorem peek_congr (h : ∀ i, off ≤ i → i < off + n → m i = m' i) :
    peek m off n = peek m' off n := by
  apply map_congr_left
  intro i hi
  rw [mem_range] at hi
  exact h _ (Nat.le_add_right _ _) (Nat.add_lt_add_left hi _)

theorem peek_poke_self (m : Buf) (off : Nat) (bs : List UInt8) :
    peek (poke m off bs) off bs.length = bs := by
  apply ext_getElem (by simp)
  intro i _ h
  simp [peek, poke, h]

theorem peek_poke_before (m : Buf) (off : Nat) (bs : List UInt8) {a : Nat} (h : a + n ≤ off) :
    peek (poke m off bs) a n = peek m a n :=
  peek_congr fun i _ hi => by unfold poke; rw [if_neg (by omega)]

theorem poke_outside (h : i < off ∨ off + bs.length ≤ i) : poke m off bs i = m i := by
  rw [poke, if_neg (by omega)]

theorem poke_inside (h : i < bs.length) : poke m off bs (off + i) = bs.getD i 0 := by
  rw [poke, if_pos (by omega), Nat.add_sub_cancel_left]

theorem getD_peek (m : Buf) (off : Nat) (h : i < n) : (peek m off n).getD i 0 = m (off + i) := by
  rw [getD_eq_getElem _ _ (by rw [peek_length]; exact h)]
  simp [peek]

theorem peek_eq_peek_iff {p q : Nat} :
    peek m p n = peek m' q n ↔ ∀ i < n, m (p + i) = m' (q + i) := by
  constructor
  · intro h i hi
    rw [← getD_peek m p hi, h, getD_peek m' q hi]
  · intro h
    apply map_congr_left
    intro i hi
    exact h i (mem_range.mp hi)

theorem poke_inj {cs : List UInt8} (hlen : bs.length = cs.length)
    (h : poke m off bs = poke m off cs) : bs = cs := by
  rw [← peek_poke_self m off bs, h, hlen, peek_poke_self]

/-- Two writes, the second right behind the first, are one. -/
theorem poke_poke_append (m : Buf) (off : Nat) (bs cs : List UInt8) :
    poke (poke m off bs) (off + bs.length) cs = poke m off (bs ++ cs) := by
  funext i
  simp only [poke, length_append]
  by_cases h1 : off + bs.length ≤ i ∧ i < off + bs.length + cs.length
  · rw [if_pos h1, if_pos (by omega), getD_append_right _ _ _ _ (by omega), Nat.sub_add_eq]
  · rw [if_neg h1]
    by_cases h2 : off ≤ i ∧ i < off + bs.length
    · rw [if_pos h2, if_pos (by omega), getD_append _ _ _ _ (by omega)]
    · rw [if_neg h2, if_neg (by omega)]

@[simp] theorem poke_nil (m : Buf) (off : Nat) : poke m off [] = m := by
  funext i
  rw [poke, if_neg (by simp only [length_nil]; omega)]

/-- Appending at the fill level `off` extends the buffer's contents. -/
theorem peek_poke_append (m : Buf) (a off : Nat) (bs : List UInt8) (h : a ≤ off) :
    peek (poke m off bs) a (off - a + bs.length) = peek m a (off - a) ++ bs := by
  rw [peek_add, peek_poke_before m off bs (by omega), show a + (off - a) = off by omega,
    peek_poke_self]

end Dgos
