import Mathlib

/-!
# Masks and alignment on `w`-bit words

Words are natural numbers below `2^w`. `maskNeg w x a` is the `x & -a` that rounds down
to a power of two; `alignAdj w x a` is `((x + a - 1) & -a) - x`, the distance to the next
multiple of `a`.
-/
namespace Dgos

open Nat

/-- `x & -a` in `w` bits. -/
def maskNeg (w x a : Nat) : Nat := x &&& (2 ^ w - a)

/-- `((x + a - 1) & -a) - x` in `w` bits. -/
def alignAdj (w x a : Nat) : Nat := (maskNeg w ((x + a - 1) % 2 ^ w) a + 2 ^ w - x) % 2 ^ w

theorem maskNeg_two_pow {w x k : Nat} (hx : x < 2 ^ w) (hk : k ≤ w) :
    maskNeg w x (2 ^ k) = x / 2 ^ k * 2 ^ k := by
  have hmask : 2 ^ w - 2 ^ k = 2 ^ k * (2 ^ (w - k) - 1) := by
    rw [Nat.mul_sub, mul_one, ← pow_add, Nat.add_sub_cancel' hk]
  unfold maskNeg
  rw [hmask, mul_comm (x / 2 ^ k)]
  refine eq_of_testBit_eq fun i => ?_
  rw [testBit_and, testBit_two_pow_mul, testBit_two_pow_mul, testBit_div_two_pow]
  by_cases hi : k ≤ i
  · rw [Nat.sub_add_cancel hi]
    by_cases hiw : i < w
    · simp [hi, show i - k < w - k by omega]
    · have hbit : x.testBit i = false :=
        Nat.testBit_lt_two_pow (lt_of_lt_of_le hx (Nat.pow_le_pow_right (by omega) (by omega)))
      simp [hbit]
  · simp [hi]

theorem eq_maskNeg_iff {w x k : Nat} (hx : x < 2 ^ w) (hk : k ≤ w) :
    x = maskNeg w x (2 ^ k) ↔ x % 2 ^ k = 0 := by
  rw [maskNeg_two_pow hx hk]
  constructor
  · intro h
    rw [h]
    exact mul_mod_left _ _
  · intro h
    exact (Nat.div_mul_cancel (Nat.dvd_of_mod_eq_zero h)).symm

theorem add_sub_one_mod {x a : Nat} (ha : 0 < a) : (x + a - 1) % a + (a - x % a) % a = a - 1 := by
  have hr := mod_lt x ha
  rw [Nat.add_sub_assoc (show 1 ≤ a from ha), add_mod, mod_eq_of_lt (Nat.sub_lt ha one_pos)]
  generalize x % a = r at *
  rcases Nat.eq_zero_or_pos r with rfl | h0
  · rw [Nat.sub_zero, Nat.mod_self, zero_add, mod_eq_of_lt (by omega), add_zero]
  · rw [mod_eq_sub_mod (by omega), mod_eq_of_lt (by omega), mod_eq_of_lt (by omega)]
    omega

/-- The distance to the next multiple, also where the sum wraps. -/
theorem alignAdj_two_pow {w x k : Nat} (hx : x < 2 ^ w) (hk : k ≤ w) :
    alignAdj w x (2 ^ k) = (2 ^ k - x % 2 ^ k) % 2 ^ k := by
  have hpos := Nat.two_pow_pos k
  have hle : 2 ^ k ≤ 2 ^ w := Nat.pow_le_pow_right (by decide) hk
  have hsum := add_sub_one_mod (x := x) hpos
  have hmod := mod_mod_of_dvd (x + 2 ^ k - 1) (Nat.pow_dvd_pow 2 hk)
  have hmodle := mod_le ((x + 2 ^ k - 1) % 2 ^ w) (2 ^ k)
  unfold alignAdj
  rw [maskNeg_two_pow (mod_lt _ (by omega)) hk, div_mul_self_eq_mod_sub_self, hmod]
  generalize (2 ^ k - x % 2 ^ k) % 2 ^ k = t at *
  rcases lt_or_ge (x + 2 ^ k - 1) (2 ^ w) with h | h
  · rw [mod_eq_of_lt h, show x + 2 ^ k - 1 - _ + 2 ^ w - x = t + 2 ^ w by omega, add_mod_right,
      mod_eq_of_lt (by omega)]
  · have hwrap : (x + 2 ^ k - 1) % 2 ^ w = x + 2 ^ k - 1 - 2 ^ w := by
      rw [mod_eq_sub_mod h, mod_eq_of_lt (by omega)]
    rw [hwrap, show x + 2 ^ k - 1 - 2 ^ w - _ + 2 ^ w - x = t by omega, mod_eq_of_lt (by omega)]

/-- The least exponent that is enough, from the exponent below. -/
theorem log2_add_le_iff {n k : Nat} (hn : 0 < n) :
    n.log2 + (if n % 2 ^ n.log2 = 0 then 0 else 1) ≤ k ↔ n ≤ 2 ^ k := by
  have hlo : 2 ^ n.log2 ≤ n := log2_self_le (by omega)
  have hhi : n < 2 ^ (n.log2 + 1) := lt_log2_self
  have hmod : n % 2 ^ n.log2 = n - 2 ^ n.log2 := by
    rw [mod_eq_sub_mod hlo, mod_eq_of_lt (by omega)]
  have hpow : ∀ {a b : Nat}, 2 ^ a ≤ 2 ^ b ↔ a ≤ b := Nat.pow_le_pow_iff_right (by omega)
  split
  · rw [add_zero, ← hpow]
    omega
  · constructor
    · intro hk
      exact le_of_lt (lt_of_lt_of_le hhi (hpow.2 hk))
    · intro hk
      exact (Nat.pow_lt_pow_iff_right (by omega : 1 < 2)).1 (by omega : 2 ^ n.log2 < 2 ^ k)

end Dgos
