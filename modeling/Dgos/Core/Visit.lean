import Mathlib

/-!
# Loops over a list that can stop early

`visit f l s` calls `f` for the elements of `l` one after the other, as long as it says to go on,
and hands a state from call to call. The result says whether all elements were visited.

Two loops over the same list can be compared step by step (`visit_rel`), and the list can be cut
where they differ (`visit_append`).
-/
namespace Dgos

open List

variable {α σ τ : Type}

def visit (f : σ → α → Bool × σ) : List α → σ → Bool × σ
  | [], s => (true, s)
  | a :: l, s =>
    match f s a with
    | (true, s) => visit f l s
    | (false, s) => (false, s)

section Visit

variable {f : σ → α → Bool × σ} {a : α} {l l' : List α} {s s' : σ}

theorem visit_cons_true (h : f s a = (true, s')) : visit f (a :: l) s = visit f l s' := by
  rw [visit, h]

theorem visit_cons_false (h : f s a = (false, s')) : visit f (a :: l) s = (false, s') := by
  rw [visit, h]

theorem visit_append : visit f (l ++ l') s =
    match visit f l s with
    | (true, s') => visit f l' s'
    | (false, s') => (false, s') := by
  induction l generalizing s with
  | nil => rfl
  | cons a l ih =>
    rw [cons_append, visit, visit]
    rcases f s a with ⟨_ | _, t⟩
    · rfl
    · exact ih

theorem visit_append_true (h : visit f l s = (true, s')) : visit f (l ++ l') s = visit f l' s' := by
  rw [visit_append, h]

theorem visit_append_false (h : visit f l s = (false, s')) : visit f (l ++ l') s = (false, s') := by
  rw [visit_append, h]

/-- Steps that leave the state alone do not show. -/
theorem visit_skip (h : ∀ a ∈ l, f s a = (true, s)) : visit f l s = (true, s) := by
  induction l with
  | nil => rfl
  | cons a l ih =>
    rw [visit_cons_true (h a mem_cons_self), ih fun b hb => h b (mem_cons_of_mem a hb)]

theorem visit_congr {g : σ → α → Bool × σ} (h : ∀ a ∈ l, ∀ s, f s a = g s a) (s : σ) :
    visit f l s = visit g l s := by
  induction l generalizing s with
  | nil => rfl
  | cons a l ih =>
    rw [visit, visit, h a mem_cons_self s]
    rcases g s a with ⟨go, t⟩
    cases go with
    | true => exact ih (fun b hb => h b (mem_cons_of_mem a hb)) t
    | false => rfl

/-- Steps that make the same choice and keep a relation. -/
theorem visit_rel {g : τ → α → Bool × τ} {R : σ → τ → Prop} {t : τ}
    (h : ∀ a ∈ l, ∀ s t, R s t → (f s a).1 = (g t a).1 ∧ R (f s a).2 (g t a).2) (hst : R s t) :
    (visit f l s).1 = (visit g l t).1 ∧ R (visit f l s).2 (visit g l t).2 := by
  induction l generalizing s t with
  | nil => exact ⟨rfl, hst⟩
  | cons a l ih =>
    obtain ⟨hgo, hR⟩ := h a mem_cons_self s t hst
    rw [visit, visit]
    rcases hfa : f s a with ⟨go, s'⟩
    rcases hga : g t a with ⟨go', t'⟩
    rw [hfa, hga] at hgo hR
    subst hgo
    cases go with
    | true => exact ih (fun b hb => h b (mem_cons_of_mem a hb)) hR
    | false => exact ⟨rfl, hR⟩

end Visit

end Dgos
