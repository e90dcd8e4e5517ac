import Mathlib

/-!
# Rings: doubly linked lists closed by their root

A link is a `next` and a `prev` pointer (`none` is null). `Path k a l b` says that `next`
leads from `a` through the cells of `l` to `b` and that `prev` leads the same way back; a
ring is a path from its root to its root over distinct cells. The rules are the ones wait
queues need: the test for an empty ring, the first cell, insertion before the root, removal
of a cell, and the frame rule.
-/
namespace Dgos

open List Option Function

variable {α : Type} {l' : List α}

structure ListLinks (α : Type) where
  next : α → Option α
  prev : α → Option α

namespace ListLinks

variable [DecidableEq α]

def setNext (k : ListLinks α) (a : α) (p : Option α) : ListLinks α :=
  { k with next := Function.update k.next a p }

def setPrev (k : ListLinks α) (a : α) (p : Option α) : ListLinks α :=
  { k with prev := Function.update k.prev a p }

@[simp] theorem setNext_next (k : ListLinks α) (a : α) (p : Option α) :
    (k.setNext a p).next = update k.next a p := rfl

@[simp] theorem setNext_prev (k : ListLinks α) (a : α) (p : Option α) :
    (k.setNext a p).prev = k.prev := rfl

@[simp] theorem setPrev_next (k : ListLinks α) (a : α) (p : Option α) :
    (k.setPrev a p).next = k.next := rfl

@[simp] theorem setPrev_prev (k : ListLinks α) (a : α) (p : Option α) :
    (k.setPrev a p).prev = update k.prev a p := rfl

end ListLinks

/-- `next` leads from `a` through `l` to `b`, and `prev` back. -/
def Path (k : ListLinks α) : α → List α → α → Prop
  | a, [], b => k.next a = some b ∧ k.prev b = some a
  | a, c :: l, b => (k.next a = some c ∧ k.prev c = some a) ∧ Path k c l b

namespace Path

variable {k k' : ListLinks α} {a b c : α} {l m : List α}

@[simp] theorem nil_iff : Path k a [] b ↔ k.next a = some b ∧ k.prev b = some a := Iff.rfl

@[simp] theorem cons_iff :
    Path k a (c :: l) b ↔ (k.next a = some c ∧ k.prev c = some a) ∧ Path k c l b := Iff.rfl

theorem append_iff : Path k a (l ++ c :: m) b ↔ Path k a l c ∧ Path k c m b := by
  induction l generalizing a with
  | nil => simp
  | cons d l ih => simp [ih, and_assoc]

section

variable (h : Path k a l b)
include h

/-- ListLinks that agree on the cells of the path have the same path. -/
theorem frame (hn : ∀ c ∈ a :: l, k'.next c = k.next c)
    (hp : ∀ c ∈ l ++ [b], k'.prev c = k.prev c) : Path k' a l b := by
  induction l generalizing a with
  | nil =>
    rw [nil_iff] at ⊢
    rw [hn a (by simp), hp b (by simp)]
    exact h
  | cons c l ih =>
    obtain ⟨hac, ht⟩ := h
    refine ⟨?_, ih ht (fun d hd => hn d (mem_cons_of_mem a hd))
      fun d hd => hp d (mem_cons_of_mem c hd)⟩
    rw [hn a mem_cons_self, hp c (by simp)]
    exact hac

theorem next_eq : k.next a = some (l.headD b) := by
  cases l with
  | nil => exact h.1
  | cons c l => exact h.1.1

theorem prev_eq : k.prev b = some (l.getLastD a) := by
  induction l generalizing a with
  | nil => exact h.2
  | cons c l ih =>
    rw [ih h.2]
    cases l <;> rfl

theorem exists_next : ∃ c ∈ l ++ [b], k.next a = some c := by
  refine ⟨l.headD b, ?_, h.next_eq⟩
  cases l <;> simp

theorem exists_prev : ∃ c ∈ a :: l, k.prev b = some c :=
  ⟨l.getLastD a, getLastD_mem_cons, h.prev_eq⟩

/-- The cells before a known end are determined by the links. -/
theorem unique (h' : Path k a l' b) (hb : b ∉ l) (hb' : b ∉ l') : l = l' := by
  induction l generalizing a l' with
  | nil =>
    cases l' with
    | nil => rfl
    | cons c l' =>
      have : c = b := some.inj (h'.1.1.symm.trans h.1)
      exact absurd (this ▸ mem_cons_self) hb'
  | cons c l ih =>
    cases l' with
    | nil =>
      have : c = b := some.inj (h.1.1.symm.trans h'.1)
      exact absurd (this ▸ mem_cons_self) hb
    | cons d l' =>
      cases h.1.1.symm.trans h'.1.1
      rw [ih h.2 h'.2 (fun hm => hb (mem_cons_of_mem c hm)) fun hm => hb' (mem_cons_of_mem c hm)]

end

end Path

structure Ring (k : ListLinks α) (root : α) (l : List α) : Prop where
  nodup : (root :: l).Nodup
  path : Path k root l root

namespace Ring

variable {k k' : ListLinks α} {root a : α} {l : List α}

theorem root_not_mem (h : Ring k root l) : root ∉ l := (nodup_cons.1 h.nodup).1

theorem unique (h : Ring k root l) (h' : Ring k root l') : l = l' :=
  h.path.unique h'.path h.root_not_mem h'.root_not_mem

theorem frame (h : Ring k root l) (hn : ∀ c ∈ root :: l, k'.next c = k.next c)
    (hp : ∀ c ∈ root :: l, k'.prev c = k.prev c) : Ring k' root l :=
  ⟨h.nodup, h.path.frame hn fun c hc => hp c (by simpa [or_comm] using hc)⟩

variable [DecidableEq α]

/-- The cell `a` is linked in before the root, behind `last`. -/
theorem insert (h : Ring k root l) (ha : a ∉ root :: l) {last : α} (hl : k.prev root = some last) :
    Ring ((((k.setNext a (some root)).setPrev a (some last)).setNext last (some a)).setPrev root
      (some a)) root (l ++ [a]) := by
  have hnd : ((root :: l) ++ [a]).Nodup := by
    rw [← concat_eq_append]
    exact h.nodup.concat ha
  refine ⟨hnd, ?_⟩
  have hlast := h.path.prev_eq
  rw [hl] at hlast
  obtain ⟨har, hal⟩ : a ≠ root ∧ a ∉ l := by simpa using ha
  induction l using reverseRecOn with
  | nil =>
    obtain rfl : last = root := by simpa using hlast
    simp [update_of_ne har]
  | append_singleton l b _ =>
    obtain rfl : last = b := by simpa using hlast
    simp only [mem_append, mem_singleton, not_or] at hal
    rw [append_assoc, singleton_append, Path.append_iff]
    refine ⟨((Path.append_iff.1 h.path).1).frame ?_ ?_, ?_⟩
    · intro c hc
      have hca : c ≠ a := by grind
      have hcl : c ≠ last := by grind
      simp [hca, hcl]
    · intro c hc
      have hca : c ≠ a := by grind
      have hcr : c ≠ root := by grind
      simp [hca, hcr]
    · simp [har, hal.2]

/-- The cell `a` is taken out; its own links become null. -/
theorem remove {l1 l2 : List α} (h : Ring k root (l1 ++ a :: l2)) {n p : α}
    (hn : k.next a = some n) (hp : k.prev a = some p) :
    Ring ((((k.setNext p (some n)).setPrev n (some p)).setNext a none).setPrev a none) root
      (l1 ++ l2) := by
  generalize hk' : (((k.setNext p (some n)).setPrev n (some p)).setNext a none).setPrev a none = k'
  have hnd := h.nodup
  refine ⟨hnd.sublist (List.Sublist.cons_cons root ?_), ?_⟩
  · exact (List.Sublist.refl l1).append (sublist_cons_self a l2)
  obtain ⟨hp1, hp2⟩ := Path.append_iff.1 h.path
  have hp' := hp1.prev_eq
  have hn' := hp2.next_eq
  rw [hp] at hp'
  rw [hn] at hn'
  have hnext : ∀ c ≠ a, c ≠ p → k'.next c = k.next c := fun c ha hp => by simp [← hk', ha, hp]
  have hprev : ∀ c ≠ a, c ≠ n → k'.prev c = k.prev c := fun c ha hn => by simp [← hk', ha, hn]
  -- the cells before `a` end in `p`, or there are none and `p` is the root; `n` likewise
  have hpa : p ≠ a := by
    induction l1 using reverseRecOn <;> grind
  have hna : n ≠ a := by
    cases l2 <;> grind
  have hnl : n ∉ l1 := by
    cases l2 <;> grind
  have hjoin : k'.next p = some n ∧ k'.prev n = some p := by simp [← hk', hpa, hna]
  clear hk'
  have hright : Path k' p l2 root := by
    cases l2 with
    | nil =>
      obtain rfl : n = root := by simpa using hn'
      exact hjoin
    | cons c l2 =>
      obtain rfl : n = c := by simpa using hn'
      exact ⟨hjoin, hp2.2.frame (fun d hd => hnext d (by grind) (by grind))
        fun d hd => hprev d (by grind) (by grind)⟩
  induction l1 using reverseRecOn with
  | nil =>
    obtain rfl : p = root := by simpa using hp'
    exact hright
  | append_singleton l1 b _ =>
    obtain rfl : p = b := by simpa using hp'
    rw [append_assoc, singleton_append, Path.append_iff]
    exact ⟨(Path.append_iff.1 hp1).1.frame (fun d hd => hnext d (by grind) (by grind))
      fun d hd => hprev d (by grind) (by grind), hright⟩

end Ring

end Dgos
