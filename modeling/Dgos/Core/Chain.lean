import Mathlib

/-!
# Singly linked chains

A chain is a pointer (`none` is null) and a `next` field for every cell.
`Chain next p l` says that following `next` from `p` visits exactly the cells of
`l` and then null. The rules below are the ones list code needs: take the head
off, push a cell on the front, append behind the last cell, and the frame rule
for writes to cells that are not on the chain.
-/
namespace Dgos

open Function List

variable {α : Type} {next' : α → Option α}

def Chain (next : α → Option α) : Option α → List α → Prop
  | p, [] => p = none
  | p, a :: l => p = some a ∧ Chain next (next a) l

namespace Chain

variable {next : α → Option α} {p : Option α} {l : List α} {a : α}

@[simp] theorem nil_iff : Chain next p [] ↔ p = none := Iff.rfl

@[simp] theorem cons_iff : Chain next p (a :: l) ↔ p = some a ∧ Chain next (next a) l :=
  Iff.rfl

theorem none_iff : Chain next none l ↔ l = [] := by
  cases l <;> simp

theorem eq_head? (h : Chain next p l) : p = l.head? := by
  cases l with
  | nil => exact h
  | cons a l => exact h.1

theorem unique {l' : List α} (h : Chain next p l) (h' : Chain next p l') : l = l' := by
  induction l generalizing p l' with
  | nil => subst h; exact (none_iff.1 h').symm
  | cons a l ih =>
    obtain ⟨rfl, ht⟩ := h
    cases l' with
    | nil => cases h'
    | cons b l' =>
      obtain ⟨hb, ht'⟩ := h'
      cases hb
      rw [ih ht ht']

/-- A `next` that agrees on the cells of the chain has the same chain. -/
theorem frame (h : Chain next p l) (hf : ∀ a ∈ l, next' a = next a) : Chain next' p l := by
  induction l generalizing p with
  | nil => exact h
  | cons a l ih =>
    obtain ⟨hp, ht⟩ := h
    refine ⟨hp, ?_⟩
    rw [hf a mem_cons_self]
    exact ih ht fun b hb => hf b (mem_cons_of_mem a hb)

variable [DecidableEq α] {b : α}

theorem update_of_not_mem {v : Option α} (h : Chain next p l) (hb : b ∉ l) :
    Chain (update next b v) p l :=
  h.frame fun _ ha => update_of_ne (ne_of_mem_of_not_mem ha hb) _ _

theorem push (h : Chain next p l) (hb : b ∉ l) : Chain (update next b p) (some b) (b :: l) :=
  ⟨rfl, by rw [update_self]; exact h.update_of_not_mem hb⟩

theorem snoc (h : Chain next p (l ++ [a])) (hnd : (l ++ [a]).Nodup)
    (hb : b ∉ l ++ [a]) (hbn : next b = none) :
    Chain (update next a (some b)) p (l ++ [a] ++ [b]) := by
  induction l generalizing p with
  | nil =>
    obtain ⟨hp, -⟩ := h
    simp only [nil_append, mem_singleton] at hb
    refine ⟨hp, ?_, ?_⟩
    · exact update_self ..
    · rw [update_of_ne hb]; exact hbn
  | cons c l ih =>
    obtain ⟨hp, ht⟩ := h
    simp only [cons_append, nodup_cons] at hnd
    have hca : c ≠ a := fun e => hnd.1 (by simp [e])
    refine ⟨hp, ?_⟩
    rw [update_of_ne hca]
    exact ih ht hnd.2 fun hm => hb (mem_cons_of_mem c hm)

end Chain

/-- Following `next` from `p` visits the cells of `l` and then stands before `q`. -/
def Segment (next : α → Option α) : Option α → List α → Option α → Prop
  | p, [], q => p = q
  | p, a :: l, q => p = some a ∧ Segment next (next a) l q

theorem Segment.frame {next : α → Option α} {p q : Option α} {l : List α}
    (h : Segment next p l q) (hf : ∀ a ∈ l, next' a = next a) : Segment next' p l q := by
  induction l generalizing p with
  | nil => exact h
  | cons a l ih =>
    obtain ⟨hp, ht⟩ := h
    refine ⟨hp, ?_⟩
    rw [hf a mem_cons_self]
    exact ih ht fun b hb => hf b (mem_cons_of_mem a hb)

/-- The cells reached from `p` in at most `fuel` links. -/
def walk (next : α → Option α) : Nat → Option α → List α
  | 0, _ => []
  | _ + 1, none => []
  | fuel + 1, some a => a :: walk next fuel (next a)

theorem walk_none (next : α → Option α) (fuel : Nat) : walk next fuel none = [] := by
  cases fuel <;> rfl

theorem Chain.walk_eq {next : α → Option α} {p : Option α} {l : List α} (h : Chain next p l)
    {fuel : Nat} (hf : l.length ≤ fuel) : walk next fuel p = l := by
  induction l generalizing p fuel with
  | nil => subst h; exact walk_none next fuel
  | cons a l ih =>
    obtain ⟨rfl, ht⟩ := h
    obtain _ | fuel := fuel
    · simp at hf
    simp only [length_cons, Nat.add_le_add_iff_right] at hf
    rw [walk, ih ht hf]

/-- Distinct cells below `n`: a bound on the length of a chain in a pool of `n` cells. -/
theorem length_le_of_nodup_lt {l : List Nat} {n : Nat} (hnd : l.Nodup) (h : ∀ p ∈ l, p < n) :
    l.length ≤ n := by
  have hsub : l ⊆ range n := fun p hp => mem_range.2 (h p hp)
  simpa using (subperm_of_subset hnd hsub).length_le

end Dgos
