import Mathlib

/-!
# Address ranges

A range is a base and a length; `Covers rs x` says that `x` lies in a range of the
list, and `cut rs r` removes the addresses of `r` from every range. `Apart` is the
decidable form of disjointness that allocators test. `Owns mapped own` is the ledger of an
allocator: the ranges of `own` are disjoint parts of the mapped memory.
-/
namespace Dgos

open List

/-- Base and length. -/
abbrev Range := Nat × Nat

variable {q : Range}

namespace Range

def Mem (r : Range) (x : Nat) : Prop := r.1 ≤ x ∧ x < r.1 + r.2

instance (r : Range) (x : Nat) : Decidable (r.Mem x) := inferInstanceAs (Decidable (_ ∧ _))

/-- No common address, as the end points show it. -/
def Apart (r r' : Range) : Prop := r.1 + r.2 ≤ r'.1 ∨ r'.1 + r'.2 ≤ r.1

instance (r r' : Range) : Decidable (r.Apart r') := inferInstanceAs (Decidable (_ ∨ _))

/-- Every address of `r` is one of `r'`. -/
def Sub (r r' : Range) : Prop := r'.1 ≤ r.1 ∧ r.1 + r.2 ≤ r'.1 + r'.2

variable {r r' : Range}

theorem Sub.mem (h : r.Sub r') {x : Nat} (hx : r.Mem x) : r'.Mem x := by
  unfold Sub at h; unfold Mem at *; omega

theorem Apart.symm (h : r.Apart r') : r'.Apart r := Or.symm h

theorem Apart.not_mem (h : r.Apart r') {x : Nat} (hx : r.Mem x) : ¬ r'.Mem x := by
  unfold Apart at h; unfold Mem at *; omega

theorem Apart.sub_left (h : r.Apart r') (hs : q.Sub r) : q.Apart r' := by
  unfold Apart at *; unfold Sub at hs; omega

theorem Apart.sub_right (h : r.Apart r') (hs : q.Sub r') : r.Apart q :=
  (h.symm.sub_left hs).symm

/-- Non-empty ranges without a common address are apart. -/
theorem apart_of_not_mem (h0 : 0 < r.2) (h0' : 0 < r'.2)
    (h : ∀ x, r.Mem x → ¬ r'.Mem x) : r.Apart r' := by
  have h1 := h r.1
  have h2 := h r'.1
  unfold Apart; unfold Mem at *; omega

theorem apart_of_pairwise {α : Type} {f : α → Range} {l : List α}
    (h : l.Pairwise fun a b => (f a).Apart (f b)) {a b : α} (ha : a ∈ l) (hb : b ∈ l)
    (hne : a ≠ b) : (f a).Apart (f b) :=
  have : Std.Symm fun a b => (f a).Apart (f b) := ⟨fun _ _ hab => Apart.symm hab⟩
  h.forall ha hb hne

end Range

open Range

def Covers (rs : List Range) (x : Nat) : Prop := ∃ r ∈ rs, r.Mem x

instance (rs : List Range) (x : Nat) : Decidable (Covers rs x) :=
  inferInstanceAs (Decidable (∃ r ∈ rs, _))

variable {x : Nat} {r : Range} {rs : List Range}

@[simp] theorem covers_nil : ¬ Covers [] x := by simp [Covers]

@[simp] theorem covers_cons : Covers (r :: rs) x ↔ r.Mem x ∨ Covers rs x := by simp [Covers]

theorem covers_append {rs' : List Range} : Covers (rs ++ rs') x ↔ Covers rs x ∨ Covers rs' x := by
  simp [Covers, or_and_right, exists_or]

/-- The parts of `q` in front of and behind `r`. -/
def Range.cut (q r : Range) : List Range :=
  (if q.1 < r.1 then [(q.1, min q.2 (r.1 - q.1))] else []) ++ (if r.1 + r.2 < q.1 + q.2 then
      [(max q.1 (r.1 + r.2), q.1 + q.2 - max q.1 (r.1 + r.2))] else [])

/-- Remove the addresses of `r`. -/
def cut (rs : List Range) (r : Range) : List Range := rs.flatMap (·.cut r)

theorem Range.covers_cut : Covers (q.cut r) x ↔ q.Mem x ∧ ¬ r.Mem x := by
  unfold Range.cut
  rw [covers_append]
  constructor
  · rintro (h | h)
    · split at h
      · simp only [covers_cons, covers_nil, or_false, Mem] at *; omega
      · simp at h
    · split at h
      · simp only [covers_cons, covers_nil, or_false, Mem] at *; omega
      · simp at h
  · rintro ⟨hq, hr⟩
    by_cases hx : x < r.1
    · rw [if_pos (by unfold Mem at hq; omega)]
      simp only [covers_cons, covers_nil, or_false, Mem] at *; omega
    · right
      rw [if_pos (by unfold Mem at *; omega)]
      simp only [covers_cons, covers_nil, or_false, Mem] at *; omega

theorem covers_cut : Covers (cut rs r) x ↔ Covers rs x ∧ ¬ r.Mem x := by
  have : Covers (cut rs r) x ↔ ∃ q ∈ rs, Covers (q.cut r) x := by
    simp only [Covers, cut, mem_flatMap]
    constructor
    · rintro ⟨p, ⟨q, hq, hp⟩, hx⟩; exact ⟨q, hq, p, hp, hx⟩
    · rintro ⟨q, hq, p, hp, hx⟩; exact ⟨p, ⟨q, hq, hp⟩, hx⟩
  rw [this]
  simp only [Range.covers_cut]
  constructor
  · rintro ⟨q, hq, h1, h2⟩; exact ⟨⟨q, hq, h1⟩, h2⟩
  · rintro ⟨⟨q, hq, h1⟩, h2⟩; exact ⟨q, hq, h1, h2⟩

/-! ## Ownership -/

/-- `own` are non-empty, pairwise disjoint ranges inside the mapped memory. -/
structure Owns (mapped own : List Range) : Prop where
  pos : ∀ r ∈ own, 0 < r.2
  apart : own.Pairwise Apart
  inside : ∀ r ∈ own, ∀ x, r.Mem x → Covers mapped x

namespace Owns

variable {mapped own own' : List Range}

theorem nil : Owns mapped [] := ⟨by simp, List.Pairwise.nil, by simp⟩

theorem perm (h : Owns mapped own) (hp : own.Perm own') : Owns mapped own' where
  pos r hr := h.pos r (hp.mem_iff.2 hr)
  apart := (hp.pairwise_iff Apart.symm).1 h.apart
  inside r hr := h.inside r (hp.mem_iff.2 hr)

theorem of_append (rs : List Range) (h : Owns mapped (rs ++ own)) : Owns mapped own where
  pos q hq := h.pos q (mem_append_right rs hq)
  apart := (pairwise_append.1 h.apart).2.1
  inside q hq := h.inside q (mem_append_right rs hq)

theorem of_cons (h : Owns mapped (r :: own)) : Owns mapped own := h.of_append [r]

/-- A fresh region, cut into disjoint parts, joins the ledger. -/
theorem map_fresh (h : Owns mapped own) (parts : List Range) (hr : ∀ q ∈ mapped, q.Apart r)
    (hpos : ∀ q ∈ parts, 0 < q.2) (hsub : ∀ q ∈ parts, q.Sub r) (hap : parts.Pairwise Apart) :
    Owns (r :: mapped) (parts ++ own) where
  pos q hq := (mem_append.1 hq).elim (hpos q) (h.pos q)
  apart := by
    refine pairwise_append.2 ⟨hap, h.apart, fun p hp q hq => ?_⟩
    refine apart_of_not_mem (hpos p hp) (h.pos q hq) fun x hx hxq => ?_
    obtain ⟨m, hm, hxm⟩ := h.inside q hq x hxq
    exact (hr m hm).not_mem hxm ((hsub p hp).mem hx)
  inside q hq x hx := by
    rw [covers_cons]
    rcases mem_append.1 hq with hq | hq
    · exact .inl ((hsub q hq).mem hx)
    · exact .inr (h.inside q hq x hx)

theorem unmap (h : Owns mapped (r :: own)) : Owns (cut mapped r) own where
  pos := h.of_cons.pos
  apart := h.of_cons.apart
  inside q hq x hx :=
    covers_cut.2 ⟨h.of_cons.inside q hq x hx, ((pairwise_cons.1 h.apart).1 q hq).symm.not_mem hx⟩

theorem unmap_all (rs : List Range) (h : Owns mapped (rs ++ own)) :
    Owns (rs.foldl cut mapped) own := by
  induction rs generalizing mapped with
  | nil => exact h
  | cons r rs ih => exact ih h.unmap

end Owns

end Dgos
