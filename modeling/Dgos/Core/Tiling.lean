import Dgos.Core.Ranges

/-!
# Blocks laid end to end

A list of blocks, each used or free, that tiles the addresses from `a` on. `usedFrom` are
the used blocks as ranges, `FreeFrom` the addresses in free blocks; merging neighbouring
free blocks changes neither.
-/
namespace Dgos

open Range List

structure Blk where
  size : Nat
  used : Bool

namespace Blk

def total : List Blk → Nat
  | [] => 0
  | b :: bs => b.size + total bs

/-- The used blocks of a list that starts at `a`. -/
def usedFrom : Nat → List Blk → List Range
  | _, [] => []
  | a, b :: bs => if b.used then (a, b.size) :: usedFrom (a + b.size) bs else usedFrom (a + b.size) bs

/-- `x` lies in a free block. -/
def FreeFrom : Nat → List Blk → Nat → Prop
  | _, [], _ => False
  | a, b :: bs, x => (b.used = false ∧ a ≤ x ∧ x < a + b.size) ∨ FreeFrom (a + b.size) bs x

variable {a x : Nat} {b : Blk} {bs cs : List Blk} {r : Range}

@[simp] theorem total_nil : total [] = 0 := rfl

@[simp] theorem total_cons : total (b :: bs) = b.size + total bs := rfl

@[simp] theorem total_append (bs cs : List Blk) : total (bs ++ cs) = total bs + total cs := by
  induction bs with
  | nil => simp
  | cons b bs ih => simp [ih, Nat.add_assoc]

@[simp] theorem usedFrom_append : usedFrom a (bs ++ cs) = usedFrom a bs ++ usedFrom (a + total bs) cs := by
  induction bs generalizing a with
  | nil => simp [usedFrom]
  | cons b bs ih => cases h : b.used <;> simp [usedFrom, h, ih, Nat.add_assoc]

theorem freeFrom_append (bs cs : List Blk) :
    FreeFrom a (bs ++ cs) x ↔ FreeFrom a bs x ∨ FreeFrom (a + total bs) cs x := by
  induction bs generalizing a with
  | nil => simp [FreeFrom]
  | cons b bs ih => simp [FreeFrom, ih, total_cons, Nat.add_assoc, or_assoc]

theorem freeFrom_bounds (h : FreeFrom a bs x) : a ≤ x ∧ x < a + total bs := by
  induction bs generalizing a with
  | nil => exact h.elim
  | cons b bs ih =>
    rcases h with h | h
    · simp only [total_cons]; omega
    · have := ih h; simp only [total_cons]; omega

theorem usedFrom_bounds (h : r ∈ usedFrom a bs) : a ≤ r.1 ∧ r.1 + r.2 ≤ a + total bs := by
  induction bs generalizing a with
  | nil => cases h
  | cons b bs ih =>
    simp only [total_cons]
    unfold usedFrom at h
    split at h
    · rcases mem_cons.1 h with rfl | h
      · omega
      · have := ih h; omega
    · have := ih h; omega

theorem usedFrom_apart : (usedFrom a bs).Pairwise Apart := by
  induction bs generalizing a with
  | nil => exact List.Pairwise.nil
  | cons b bs ih =>
    unfold usedFrom
    split
    · refine pairwise_cons.2 ⟨fun r hr => ?_, ih⟩
      exact .inl (usedFrom_bounds hr).1
    · exact ih

/-- A used range is one block of the list. -/
theorem mem_usedFrom (h : r ∈ usedFrom a bs) :
    ∃ p b q, bs = p ++ b :: q ∧ b.used = true ∧ r = (a + total p, b.size) := by
  induction bs generalizing a with
  | nil => cases h
  | cons b bs ih =>
    have htail : r ∈ usedFrom (a + b.size) bs →
        ∃ p c q, b :: bs = p ++ c :: q ∧ c.used = true ∧ r = (a + total p, c.size) := fun h => by
      obtain ⟨p, c, q, rfl, hu, hr⟩ := ih h
      exact ⟨b :: p, c, q, rfl, hu, by rw [hr, total_cons, Nat.add_assoc]⟩
    unfold usedFrom at h
    split_ifs at h with hu
    · rcases mem_cons.1 h with rfl | h
      · exact ⟨[], b, bs, rfl, hu, rfl⟩
      · exact htail h
    · exact htail h

theorem usedFrom_of_free (h : ∀ b ∈ bs, b.used = false) : usedFrom a bs = [] := by
  induction bs generalizing a with
  | nil => rfl
  | cons b bs ih =>
    simp only [usedFrom, h b mem_cons_self, Bool.false_eq_true, if_false]
    exact ih fun c hc => h c (mem_cons_of_mem b hc)

theorem not_freeFrom_of_used (h : ∀ b ∈ bs, b.used = true) : ¬ FreeFrom a bs x := by
  induction bs generalizing a with
  | nil => exact id
  | cons b bs ih =>
    rintro (hx | hx)
    · rw [h b mem_cons_self] at hx; cases hx.1
    · exact ih (fun c hc => h c (mem_cons_of_mem b hc)) hx

/-- A run of free blocks is free from end to end. -/
theorem freeFrom_of_free (h : ∀ b ∈ bs, b.used = false) :
    FreeFrom a bs x ↔ a ≤ x ∧ x < a + total bs := by
  refine ⟨freeFrom_bounds, ?_⟩
  induction bs generalizing a with
  | nil => simp only [total_nil]; omega
  | cons b bs ih =>
    simp only [total_cons]
    intro hx
    by_cases hb : x < a + b.size
    · exact .inl ⟨h b mem_cons_self, hx.1, hb⟩
    · exact .inr (ih (fun c hc => h c (mem_cons_of_mem b hc)) (by omega))

end Blk

end Dgos
