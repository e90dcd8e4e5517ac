import Mathlib

/-!
# Rings with free-running indices

A ring of `size` slots is written and read through counters that run on and are cut to a slot by
`% size`. `RingHolds ring size lo l` says that the slots from the counter `lo` on hold the
elements of `l`. The counters themselves may wrap at a multiple `w` of the size.
-/
namespace Dgos

open Function Nat

variable {α : Type} {ring : Nat → α} {size lo : Nat} {l : List α}

def RingHolds (ring : Nat → α) (size : Nat) : Nat → List α → Prop
  | _, [] => True
  | lo, a :: l => ring (lo % size) = a ∧ RingHolds ring size (lo + 1) l

namespace RingHolds

theorem iff_getElem : RingHolds ring size lo l ↔
    ∀ i (hi : i < l.length), ring ((lo + i) % size) = l[i] := by
  induction l generalizing lo with
  | nil => simp [RingHolds]
  | cons a l ih =>
    rw [RingHolds, ih]
    refine ⟨fun h i hi => ?_, fun h => ⟨h 0 (by simp), fun i hi => ?_⟩⟩
    · cases i with
      | zero => exact h.1
      | succ i => simpa [Nat.add_assoc, Nat.add_comm 1] using h.2 i (by simpa using hi)
    · have := h (i + 1) (by simpa using hi)
      simpa [Nat.add_assoc, Nat.add_comm 1] using this

/-- A counter that wraps stands for the same slots. -/
theorem mod_iff {w : Nat} (hw : size ∣ w) :
    RingHolds ring size (lo % w) l ↔ RingHolds ring size lo l := by
  have hmod : ∀ i, (lo % w + i) % size = (lo + i) % size := fun i => by
    rw [add_mod, mod_mod_of_dvd lo hw, ← add_mod]
  simp only [iff_getElem, hmod]

theorem add_mod_ne {i n : Nat} (hi : i < n) (hn : n < size) :
    (lo + i) % size ≠ (lo + n) % size := by
  intro h
  have hd : size ∣ (lo + n) - (lo + i) :=
    dvd_of_mod_eq_zero (sub_mod_eq_zero_of_mod_eq h.symm)
  have := le_of_dvd (by omega) hd
  omega

/-- One more element behind the last, when there is room. -/
theorem push {x : α} (h : RingHolds ring size lo l) (hlt : l.length < size) :
    RingHolds (Function.update ring ((lo + l.length) % size) x) size lo (l ++ [x]) := by
  rw [iff_getElem] at h ⊢
  intro i hi
  rw [List.length_append, List.length_singleton, Nat.lt_succ_iff_lt_or_eq] at hi
  rcases hi with hi | rfl
  · rw [update_of_ne (add_mod_ne hi hlt), h i hi, List.getElem_append_left]
  · simp

end RingHolds

end Dgos
