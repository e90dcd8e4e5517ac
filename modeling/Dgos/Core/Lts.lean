import Mathlib

/-!
# Labelled transition systems

`LTS S L` is a set of initial states and a labelled step relation. A run is a
list of labels; `Inductive I` packages "`I` holds initially and every step keeps
it", so that each safety result of the development is two small goals.

A property that fails on some runs is settled by the steps that break it: `Always P` is the
property on every state of a run, `Meets ok` a condition on every step of it, and
`always_iff` turns "allowed steps keep the invariant, every other step breaks the property"
into the equivalence of the two.
-/
namespace Dgos

structure LTS (S L : Type) where
  init : S → Prop
  step : S → L → S → Prop

namespace LTS

variable {S L : Type} {M : LTS S L} {I P : S → Prop} {ls : List L} {ok : S → L → Prop} {s : S}

/-- A finite run, with the labels taken. -/
inductive Run (M : LTS S L) : S → List L → S → Prop
  | nil (s : S) : Run M s [] s
  | cons {s s' s'' : S} {l : L} {ls : List L} :
      M.step s l s' → Run M s' ls s'' → Run M s (l :: ls) s''

def Reachable (M : LTS S L) (s : S) : Prop := ∃ s0 ls, M.init s0 ∧ M.Run s0 ls s

/-- `I` holds initially and is kept by every step. -/
structure Inductive (M : LTS S L) (I : S → Prop) : Prop where
  init : ∀ s, M.init s → I s
  step : ∀ s l s', I s → M.step s l s' → I s'

theorem Inductive.run (h : M.Inductive I) {s' : S} (hr : M.Run s ls s') : I s → I s' := by
  induction hr with
  | nil => exact id
  | cons hs _ ih => exact fun hi => ih (h.step _ _ _ hi hs)

theorem Inductive.reachable (h : M.Inductive I) (s : S) (hr : M.Reachable s) : I s := by
  obtain ⟨s0, ls, h0, hrun⟩ := hr
  exact h.run hrun (h.init s0 h0)

/-- Every state passed through along the labels has `P`. -/
def Always (M : LTS S L) (P : S → Prop) : S → List L → Prop
  | s, [] => P s
  | s, l :: ls => P s ∧ ∀ s', M.step s l s' → Always M P s' ls

/-- Every step taken along the labels meets `ok`. -/
def Meets (M : LTS S L) (ok : S → L → Prop) : S → List L → Prop
  | _, [] => True
  | s, l :: ls => ∀ s', M.step s l s' → ok s l ∧ Meets M ok s' ls

/-- The first step of a system whose steps are a function. -/
theorem Meets.cons {f : S → L → Option S} {init : S → Prop} {t : S} {l : L}
    (hs : f s l = some t) (hok : ok s l) (h : Meets ⟨init, fun s l s' => f s l = some s'⟩ ok t ls) :
    Meets ⟨init, fun s l s' => f s l = some s'⟩ ok s (l :: ls) := by
  intro s' hs'
  cases hs.symm.trans hs'
  exact ⟨hok, h⟩

theorem Always.head (h : M.Always P s ls) : P s := by
  cases ls with
  | nil => exact h
  | cons l ls => exact h.1

/-- When the steps that meet `ok` keep the invariant and every other step leaves the property
behind, the property holds along a run exactly when its steps meet `ok`. -/
theorem always_iff (hgood : ∀ s, I s → P s) (hstep : ∀ s l s', I s → ok s l → M.step s l s' → I s')
    (hbad : ∀ s l s', I s → ¬ ok s l → M.step s l s' → ¬ P s') (hi : I s) (ls : List L) :
    M.Always P s ls ↔ M.Meets ok s ls := by
  induction ls generalizing s with
  | nil => exact iff_of_true (hgood s hi) trivial
  | cons l ls ih =>
    constructor
    · intro h s' hs
      have hok : ok s l := Classical.byContradiction fun hno =>
        hbad s l s' hi hno hs (h.2 s' hs).head
      exact ⟨hok, (ih (hstep s l s' hi hok hs)).1 (h.2 s' hs)⟩
    · intro h
      refine ⟨hgood s hi, fun s' hs => ?_⟩
      obtain ⟨hok, hm⟩ := h s' hs
      exact (ih (hstep s l s' hi hok hs)).2 hm

end LTS

/-- A thread goes from one free place to another: what holds at no free place holds of the same
threads as before. -/
theorem moved_iff {τ β : Type} {free : β → Bool} {f g : τ → β} {t : τ} (hf : free (f t))
    (hg : free (g t)) (hne : ∀ u ≠ t, g u = f u) (u : τ) (P : β → Prop)
    (hP : ∀ q, P q → free q = false) : P (g u) ↔ P (f u) := by
  by_cases hut : u = t
  · subst hut
    exact iff_of_false (fun hp => by simp [hP _ hp] at hg) fun hp => by simp [hP _ hp] at hf
  · rw [hne u hut]

end Dgos
