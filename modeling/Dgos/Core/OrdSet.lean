import Mathlib

/-!
# Ordered sets

A finite set of a linear order, as the strictly increasing list of its elements: what the
search trees of the kernel are for. An iterator is the element it stands at, `none` is the
end. `insert` answers with the element or its equal and whether the set grew, `lowerBound`
with the least element that is not less than the key.
-/
namespace Dgos

open List

/-- In an ordered list the first element with a property is the least one with it. -/
theorem find?_eq_some_iff_least {α : Type} {r : α → α → Prop} (hr : ∀ a b, r a b → ¬ r b a)
    {l : List α} {p : α → Bool} {a : α} (hl : l.Pairwise r) :
    l.find? p = some a ↔ a ∈ l ∧ p a ∧ ∀ b ∈ l, p b → ¬ r b a := by
  rw [find?_eq_some_iff_append]
  constructor
  · rintro ⟨hp, s, t, rfl, hs⟩
    obtain ⟨-, ht, -⟩ := pairwise_append.1 hl
    refine ⟨by simp, hp, fun b hb hpb h => ?_⟩
    rcases mem_append.1 hb with hb | hb
    · simpa [hpb] using hs b hb
    · rcases mem_cons.1 hb with rfl | hb
      · exact hr b b h h
      · exact hr a b ((pairwise_cons.1 ht).1 b hb) h
  · rintro ⟨ha, hp, hmin⟩
    obtain ⟨s, t, rfl⟩ := append_of_mem ha
    refine ⟨hp, s, t, rfl, fun b hb => ?_⟩
    have hba := (pairwise_append.1 hl).2.2 b hb a mem_cons_self
    simpa using fun hpb => hmin b (by simp [hb]) hpb hba

structure OrdSet (α : Type) [LinearOrder α] where
  items : List α
  sorted : items.Pairwise (· < ·)

namespace OrdSet

variable {α : Type} [LinearOrder α] {s t : OrdSet α} {a b k : α}

instance : Membership α (OrdSet α) := ⟨fun s a => a ∈ s.items⟩

instance (a : α) (s : OrdSet α) : Decidable (a ∈ s) := inferInstanceAs (Decidable (a ∈ s.items))

instance : DecidableEq (OrdSet α) := fun s t =>
  decidable_of_iff (s.items = t.items)
    ⟨fun h => by cases s; cases t; cases h; rfl, fun h => by rw [h]⟩

theorem mem_items : a ∈ s.items ↔ a ∈ s := Iff.rfl

theorem ext (h : ∀ a, a ∈ s ↔ a ∈ t) : s = t := by
  obtain ⟨l, hl⟩ := s
  obtain ⟨l', hl'⟩ := t
  obtain rfl : l = l' := hl.sortedLT.eq_of_mem_iff hl'.sortedLT h
  rfl

def empty : OrdSet α := ⟨[], List.Pairwise.nil⟩

@[simp] theorem not_mem_empty : a ∉ (empty : OrdSet α) := not_mem_nil

def size (s : OrdSet α) : Nat := s.items.length

theorem sorted_orderedInsert (s : OrdSet α) (a : α) (h : a ∉ s) :
    (s.items.orderedInsert (· ≤ ·) a).Pairwise (· < ·) := by
  have hle : (s.items.orderedInsert (· ≤ ·) a).SortedLE :=
    (List.Pairwise.orderedInsert a s.items (s.sorted.imp le_of_lt)).sortedLE
  have hnd : (s.items.orderedInsert (· ≤ ·) a).Nodup :=
    (perm_orderedInsert _ a s.items).nodup_iff.2 (nodup_cons.2 ⟨h, s.sorted.sortedLT.nodup⟩)
  exact (hle.sortedLT_of_nodup hnd).pairwise

/-- The set with `a`, and whether `a` was new. -/
def insert (s : OrdSet α) (a : α) : OrdSet α × Bool :=
  if h : a ∈ s then (s, false)
  else (⟨s.items.orderedInsert (· ≤ ·) a, s.sorted_orderedInsert a h⟩, true)

@[simp] theorem mem_insert : b ∈ (s.insert a).1 ↔ b = a ∨ b ∈ s := by
  unfold insert
  split_ifs with h
  · exact ⟨.inr, fun hb => hb.elim (fun e => e ▸ h) id⟩
  · exact mem_orderedInsert _

theorem insert_of_mem (h : a ∈ s) : s.insert a = (s, false) := dif_pos h

theorem insert_snd : (s.insert a).2 = decide (a ∉ s) := by
  unfold insert
  split <;> simp [*]

def erase (s : OrdSet α) (a : α) : OrdSet α :=
  ⟨s.items.erase a, s.sorted.sublist erase_sublist⟩

@[simp] theorem mem_erase : b ∈ s.erase a ↔ b ≠ a ∧ b ∈ s :=
  s.sorted.sortedLT.nodup.mem_erase_iff

theorem erase_of_not_mem (h : a ∉ s) : s.erase a = s :=
  ext fun b => by rw [mem_erase]; exact ⟨And.right, fun hb => ⟨fun e => h (e ▸ hb), hb⟩⟩

/-- The element as a node handle, if it was there, and the set without it. -/
def extract (s : OrdSet α) (a : α) : Option α × OrdSet α :=
  if a ∈ s then (some a, s.erase a) else (none, s)

def lowerBound (s : OrdSet α) (k : α) : Option α := s.items.find? fun a => k ≤ a

def next (s : OrdSet α) (k : α) : Option α := s.items.find? fun a => k < a

def prev (s : OrdSet α) (k : α) : Option α := s.items.reverse.find? fun a => a < k

def last (s : OrdSet α) : Option α := s.items.getLast?

theorem mem_of_last (h : s.last = some a) : a ∈ s := mem_of_getLast? h

theorem lowerBound_eq_some : s.lowerBound k = some a ↔ a ∈ s ∧ k ≤ a ∧ ∀ b ∈ s, k ≤ b → a ≤ b := by
  simp [lowerBound, find?_eq_some_iff_least (fun _ _ => lt_asymm) s.sorted, mem_items]

theorem lowerBound_eq_none : s.lowerBound k = none ↔ ∀ a ∈ s, a < k := by
  simp [lowerBound, find?_eq_none, mem_items]

theorem next_eq_some : s.next k = some a ↔ a ∈ s ∧ k < a ∧ ∀ b ∈ s, k < b → a ≤ b := by
  simp [next, find?_eq_some_iff_least (fun _ _ => lt_asymm) s.sorted, mem_items]

theorem prev_eq_some : s.prev k = some a ↔ a ∈ s ∧ a < k ∧ ∀ b ∈ s, b < k → b ≤ a := by
  have hrev : s.items.reverse.Pairwise (fun a b => b < a) := pairwise_reverse.2 s.sorted
  simp [prev, find?_eq_some_iff_least (fun _ _ h => lt_asymm h) hrev, mem_reverse, mem_items]

theorem erase_insert_self (h : a ∉ s) : (s.insert a).1.erase a = s :=
  ext fun b => by
    rw [mem_erase, mem_insert]
    exact ⟨fun hb => hb.2.resolve_left hb.1, fun hb => ⟨fun e => h (e ▸ hb), .inr hb⟩⟩

theorem prev_insert_self : (s.insert a).1.prev a = s.prev a := by
  refine Option.ext fun p => ?_
  simp only [prev_eq_some, mem_insert, forall_eq_or_imp, lt_irrefl, false_imp_iff, true_and]
  exact and_congr_left fun h => or_iff_right h.1.ne

theorem next_insert_self : (s.insert a).1.next a = s.next a := by
  refine Option.ext fun p => ?_
  simp only [next_eq_some, mem_insert, forall_eq_or_imp, lt_irrefl, false_imp_iff, true_and]
  exact and_congr_left fun h => or_iff_right h.1.ne'

theorem size_eq_of_injective {β : Type} [LinearOrder β] {u : OrdSet β} {f : α → β}
    (hf : Function.Injective f) (h : ∀ b, b ∈ u ↔ ∃ a ∈ s, f a = b) : s.size = u.size := by
  have hp : (s.items.map f).Perm u.items :=
    (perm_ext_iff_of_nodup (s.sorted.sortedLT.nodup.map hf) u.sorted.sortedLT.nodup).2
      fun b => mem_map.trans (h b).symm
  simpa [size] using hp.length_eq

end OrdSet

end Dgos
