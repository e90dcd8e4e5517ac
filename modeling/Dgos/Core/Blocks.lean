import Mathlib

/-!
# Requests cut at block boundaries

A loop that serves `n` bytes from offset `ofs` block by block serves `headLen b ofs n` bytes in
its first turn: up to the end of the block or of the request.
-/
namespace Dgos

open Nat

def headLen (b ofs n : Nat) : Nat := min n (b - ofs % b)

theorem headLen_le (b ofs n : Nat) : headLen b ofs n ≤ n := Nat.min_le_left _ _

theorem headLen_le_rest (b ofs n : Nat) : headLen b ofs n ≤ b - ofs % b := Nat.min_le_right _ _

variable {b n : Nat}

theorem headLen_pos (ofs : Nat) (hb : 0 < b) (hn : n ≠ 0) : 0 < headLen b ofs n := by
  have := mod_lt ofs hb
  rw [headLen]
  omega

/-- Induction over the turns of the loop. -/
theorem blocks_induction (hb : 0 < b) {P : Nat → Nat → Prop} (zero : ∀ ofs, P ofs 0)
    (step : ∀ ofs n, n ≠ 0 → P (ofs + headLen b ofs n) (n - headLen b ofs n) → P ofs n)
    (ofs n : Nat) : P ofs n := by
  induction n using Nat.strongRecOn generalizing ofs with
  | _ n ih =>
    by_cases hn : n = 0
    · rw [hn]
      exact zero ofs
    · have hpos := headLen_pos ofs hb hn
      exact step ofs n hn (ih _ (by omega) _)

/-- The bytes of the first turn are in one block. -/
theorem div_mod_head (hb : 0 < b) {ofs i : Nat} (hi : i < headLen b ofs n) :
    (ofs + i) / b = ofs / b ∧ (ofs + i) % b = ofs % b + i := by
  have hrest := headLen_le_rest b ofs n
  have hlt : ofs % b + i < b := by omega
  have hsum : ofs + i = ofs % b + i + b * (ofs / b) := by
    have := mod_add_div ofs b
    omega
  rw [hsum, add_mul_div_left _ _ hb, add_mul_mod_self_left, div_eq_of_lt hlt,
    Nat.mod_eq_of_lt hlt, Nat.zero_add]
  exact ⟨rfl, rfl⟩

/-- The request ends in the first block, or the first turn ends where the next block begins. -/
theorem last_or_next (ofs : Nat) (hb : 0 < b) (hn : n ≠ 0) :
    (headLen b ofs n = n ∧ (ofs + n - 1) / b = ofs / b) ∨
      (headLen b ofs n < n ∧ ofs + headLen b ofs n = (ofs / b + 1) * b ∧
        ofs / b + 1 ≤ (ofs + n - 1) / b) := by
  have hdiv := div_add_mod' ofs b
  have hmod := mod_lt ofs hb
  by_cases hlast : n ≤ b - ofs % b
  · refine .inl ⟨Nat.min_eq_left hlast, ?_⟩
    rw [Nat.div_eq_iff hb]
    omega
  · have hlen : headLen b ofs n = b - ofs % b := Nat.min_eq_right (by omega)
    have hnext : ofs + headLen b ofs n = (ofs / b + 1) * b := by
      rw [Nat.add_mul]
      omega
    rw [le_div_iff_mul_le hb]
    omega

end Dgos
