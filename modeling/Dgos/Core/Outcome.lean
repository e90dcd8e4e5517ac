import Mathlib

/-!
# Postconditions of fallible code

`Ensures ok e P`: the computation `e` returns a value with `P`, or stops with an
error that `ok` allows. Code whose environment may refuse to go on (an answer of
`mmap` that breaks its contract) is specified with the environment's error allowed and
the errors of the code itself (a failed assertion) not. `Returns e P`: no error at all.
-/
namespace Dgos

variable {ε α β : Type} {e : Except ε α} {f : α → Except ε β} {a : α}

theorem ok_bind (h : e = .ok a) (f : α → Except ε β) : (e >>= f) = f a := by
  rw [h]; rfl

theorem bind_eq_ok {b : β} (h : (e >>= f) = .ok b) : ∃ a, e = .ok a ∧ f a = .ok b := by
  cases e with
  | ok a => exact ⟨a, rfl, h⟩
  | error x => cases h

theorem ok_of_map {g : α → β} {b : β} (h : e.toOption.map g = some b) :
    ∃ a, e = .ok a ∧ g a = b := by
  cases e with
  | ok a => exact ⟨a, rfl, Option.some.inj h⟩
  | error x => cases h

def Ensures (ok : ε → Prop) (e : Except ε α) (P : α → Prop) : Prop :=
  match e with
  | .ok a => P a
  | .error x => ok x

namespace Ensures

variable {ok : ε → Prop} {P Q : α → Prop}

@[simp] theorem ok_iff : Ensures ok (.ok a) P ↔ P a := Iff.rfl

@[simp] theorem pure_iff : Ensures ok (pure a) P ↔ P a := Iff.rfl

theorem mono (h : Ensures ok e P) (hpq : ∀ a, P a → Q a) : Ensures ok e Q := by
  cases e with
  | ok a => exact hpq a h
  | error x => exact h

/-- The postcondition may name what was computed. -/
theorem eq (h : Ensures ok e P) : Ensures ok e fun a => e = .ok a ∧ P a := by
  cases e with
  | ok a => exact ⟨rfl, h⟩
  | error x => exact h

/-- Sequencing: the postcondition of the first part is the precondition of the rest. -/
theorem bind {R : β → Prop} (h : Ensures ok e P)
    (hf : ∀ a, P a → Ensures ok (f a) R) : Ensures ok (e >>= f) R := by
  cases e with
  | ok a => exact hf a h
  | error x => exact h

theorem of_ok (h : Ensures ok e P) (he : e = .ok a) : P a := by
  subst he; exact h

end Ensures

def Returns (e : Except ε α) (P : α → Prop) : Prop := ∃ a, e = .ok a ∧ P a

theorem Returns.bind {P : α → Prop} {Q : β → Prop}
    (h : Returns e P) (hf : ∀ a, e = .ok a → P a → Returns (f a) Q) : Returns (e >>= f) Q := by
  obtain ⟨a, hok, ha⟩ := h
  rw [ok_bind hok]
  exact hf a hok ha

end Dgos
