import Mathlib

/-!
# `memcmp` and `const_time_memcmp` (kernel/lib/string.cc)

A memory has a byte at each of the 2^64 addresses; pointers wrap.

Results:
* `compare_right_iff`: `const_time_memcmp` agrees with `memcmp` on equal buffers only.
-/
namespace Dgos.L1.MemOps

abbrev Addr := BitVec 64

abbrev Mem := Addr → UInt8

/-- `repe cmpsb`, and the answer for the flags it leaves. -/
def cmpsb (m : Mem) : Nat → Addr → Addr → Int
  | 0, _, _ => 0
  | n + 1, lhs, rhs =>
    if m lhs = m rhs then cmpsb m n (lhs + 1) (rhs + 1) else if m lhs < m rhs then -1 else 1

/-- mirrors string.cc:126-144 -/
def memcmp (m : Mem) (lhs rhs : Addr) (count : BitVec 64) : Int := cmpsb m count.toNat lhs rhs

/-- The pointers stay where they are. -/
def constTimeLoop (m : Mem) (lhs rhs : Addr) : Nat → Int → Int
  | 0, result => result
  | n + 1, result =>
    let diff := ((m rhs).toNat : Int) - (m lhs).toNat
    constTimeLoop m lhs rhs n (if result ≠ 0 then result else diff)

/-- mirrors string.cc:157-168 -/
def constTimeMemcmp (m : Mem) (lhs rhs : Addr) (count : BitVec 64) : Int :=
  constTimeLoop m lhs rhs count.toNat 0

def Same (m : Mem) (lhs rhs : Addr) (count : BitVec 64) : Prop :=
  ∀ i < count.toNat, m (lhs + .ofNat 64 i) = m (rhs + .ofNat 64 i)

structure CompareRight (m : Mem) (lhs rhs : Addr) (count : BitVec 64) : Prop where
  zero : constTimeMemcmp m lhs rhs count = 0 ↔ Same m lhs rhs count
  sign : ¬ Same m lhs rhs count →
    (constTimeMemcmp m lhs rhs count).sign = (memcmp m lhs rhs count).sign

variable {m : Mem} {lhs rhs : Addr}

theorem constTimeLoop_eq (n : Nat) (result : Int) : constTimeLoop m lhs rhs n result =
    if result ≠ 0 ∨ n = 0 then result else ((m rhs).toNat : Int) - (m lhs).toNat := by
  induction n generalizing result with
  | zero => exact (if_pos (.inr rfl)).symm
  | succ n ih =>
    rw [constTimeLoop, ih]
    by_cases h : result = 0 <;> simp [h]

theorem compare_right_iff (m : Mem) (lhs rhs : Addr) (count : BitVec 64) :
    CompareRight m lhs rhs count ↔ Same m lhs rhs count := by
  rcases hn : count.toNat with _ | n
  · have hsame : Same m lhs rhs count := fun i hi => by omega
    refine iff_of_true ⟨iff_of_true ?_ hsame, absurd hsame⟩ hsame
    rw [constTimeMemcmp, hn]
    rfl
  have hct : constTimeMemcmp m lhs rhs count = ((m rhs).toNat : Int) - (m lhs).toNat := by
    rw [constTimeMemcmp, hn, constTimeLoop_eq, if_neg (by simp)]
  constructor
  · intro h
    by_contra hsame
    have hne := mt h.zero.1 hsame
    have hsign := h.sign hsame
    rw [hct] at hne
    have hbytes : m lhs ≠ m rhs := fun e => hne (by rw [e, Int.sub_self])
    rw [memcmp, hn, cmpsb, if_neg hbytes] at hsign
    split_ifs at hsign with hlt
    · rw [Int.sign_eq_one_of_pos (by rw [UInt8.lt_iff_toNat_lt] at hlt; omega)] at hsign
      cases hsign
    · rw [UInt8.lt_iff_toNat_lt] at hlt
      rw [Int.sign_eq_neg_one_of_neg (by omega)] at hsign
      cases hsign
  · intro hsame
    have hbytes := hsame 0 (by omega)
    simp only [BitVec.add_zero] at hbytes
    refine ⟨iff_of_true ?_ hsame, absurd hsame⟩
    rw [hct, ← hbytes, Int.sub_self]

/-- The buffers `1 2` and `1 3`. -/
theorem late_difference_missed :
    constTimeMemcmp (fun a => if a = 1 then 2 else if a = 9 then 3 else 1) 0 8 2 = 0 ∧
      memcmp (fun a => if a = 1 then 2 else if a = 9 then 3 else 1) 0 8 2 = -1 := by
  decide

end Dgos.L1.MemOps
