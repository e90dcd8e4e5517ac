import Dgos.Core.Outcome

/-!
# Raw storage and the objects in it

Storage is a row of cells; a cell holds no object, an object that was moved from, or a live
object with a value. Constructing, reading, moving from and destroying an object are partial:
leaving the storage, touching a cell without an object and reading a moved-from value are
errors.

`Holds b i l` says that the cells from `i` on hold the elements of `l`, and `Touched b lo hi b'`
that `b'` differs from `b` between `lo` and `hi` at most. Every operation is specified by these
two.
-/
namespace Dgos

open List Function

variable {T : Type}

inductive Cell (T : Type) where
  | raw
  | moved
  | live (x : T)

structure Storage (T : Type) where
  size : Nat
  cell : Nat → Cell T

namespace Storage

inductive Err where
  | outOfBounds
  | noObject
  | movedFrom
  | dangling
  deriving DecidableEq, Repr

def set (b : Storage T) (i : Nat) (c : Cell T) : Storage T :=
  { b with cell := Function.update b.cell i c }

/-- The value of the object at `i`. -/
def read (b : Storage T) (i : Nat) : Except Err T :=
  if i < b.size then
    match b.cell i with
    | .live x => .ok x
    | .moved => .error .movedFrom
    | .raw => .error .noObject
  else .error .outOfBounds

/-- Moving the value out of the object at `i`, which stays behind as a moved-from object. -/
def take (b : Storage T) (i : Nat) : Except Err (T × Storage T) := do
  let x ← b.read i
  return (x, b.set i .moved)

/-- Constructing an object in place: what was there before is not looked at. -/
def construct (b : Storage T) (i : Nat) (x : T) : Except Err (Storage T) :=
  if i < b.size then .ok (b.set i (.live x)) else .error .outOfBounds

/-- A trivial destructor does nothing, not even look at the cell. -/
def destruct (trivial : Bool) (b : Storage T) (i : Nat) : Except Err (Storage T) :=
  if trivial then .ok b
  else if i < b.size then
    match b.cell i with
    | .raw => .error .noObject
    | .moved => .ok (b.set i .raw)
    | .live _ => .ok (b.set i .raw)
  else .error .outOfBounds

/-! ## What a change may touch -/

structure Touched (b : Storage T) (lo hi : Nat) (b' : Storage T) : Prop where
  size : b'.size = b.size
  cell : ∀ k, k < lo ∨ hi ≤ k → b'.cell k = b.cell k

theorem Touched.refl (b : Storage T) (lo hi : Nat) : b.Touched lo hi b := ⟨rfl, fun _ _ => rfl⟩

variable {b b' : Storage T} {lo hi lo' hi' i : Nat} {l : List T} {x : T}

theorem Touched.trans {b'' : Storage T} (h : b.Touched lo hi b')
    (h' : b'.Touched lo hi b'') : b.Touched lo hi b'' :=
  ⟨h'.size.trans h.size, fun k hk => (h'.cell k hk).trans (h.cell k hk)⟩

theorem Touched.mono (h : b.Touched lo hi b')
    (hlo : lo' ≤ lo) (hhi : hi ≤ hi') : b.Touched lo' hi' b' :=
  ⟨h.size, fun k hk => h.cell k (by omega)⟩

theorem touched_set (b : Storage T) (i : Nat) (c : Cell T) : b.Touched i (i + 1) (b.set i c) :=
  ⟨rfl, fun k hk => update_of_ne (by omega) _ _⟩

@[simp] theorem cell_set_self (b : Storage T) (i : Nat) (c : Cell T) : (b.set i c).cell i = c :=
  update_self _ _ _

@[simp] theorem size_set (b : Storage T) (i : Nat) (c : Cell T) : (b.set i c).size = b.size := rfl

/-! ## What the cells hold -/

def Holds (b : Storage T) : Nat → List T → Prop
  | _, [] => True
  | i, x :: l => b.cell i = .live x ∧ b.Holds (i + 1) l

theorem Holds.nil (b : Storage T) (i : Nat) : b.Holds i [] := trivial

theorem holds_append {r : List T} :
    b.Holds i (l ++ r) ↔ b.Holds i l ∧ b.Holds (i + l.length) r := by
  induction l generalizing i with
  | nil => simp [Holds]
  | cons x l ih =>
    simp [Holds, ih, and_assoc, show i + 1 + l.length = i + (l.length + 1) by omega]

theorem Holds.congr (h : b.Holds i l)
    (heq : ∀ k, i ≤ k → k < i + l.length → b'.cell k = b.cell k) : b'.Holds i l := by
  induction l generalizing i with
  | nil => exact Holds.nil b' i
  | cons x l ih =>
    simp only [length_cons] at heq
    exact ⟨(heq i (by omega) (by omega)).trans h.1,
      ih h.2 fun k hk hk' => heq k (by omega) (by omega)⟩

theorem Holds.touched (h : b.Holds i l)
    (ht : b.Touched lo hi b') (hapart : i + l.length ≤ lo ∨ hi ≤ i) : b'.Holds i l :=
  h.congr fun k hk hk' => ht.cell k (by omega)

theorem Holds.getElem (h : b.Holds i l) {k : Nat}
    (hx : l[k]? = some x) : b.cell (i + k) = .live x := by
  induction l generalizing i k with
  | nil => simp at hx
  | cons y l ih =>
    cases k with
    | zero =>
      cases hx
      exact h.1
    | succ k =>
      rw [show i + (k + 1) = i + 1 + k by omega]
      exact ih h.2 (by simpa using hx)

/-- The cells from `lo` up to `hi` hold objects, live or moved from. -/
def Objects (b : Storage T) (lo hi : Nat) : Prop := ∀ k, lo ≤ k → k < hi → b.cell k ≠ .raw

theorem Holds.objects (h : b.Holds i l) : b.Objects i (i + l.length) := by
  intro k hk hk'
  have hlt : k - i < l.length := by omega
  have := h.getElem (getElem?_eq_getElem hlt)
  rw [show i + (k - i) = k by omega] at this
  rw [this]
  exact nofun

theorem Objects.mono (h : b.Objects lo hi) (hlo : lo ≤ lo') (hhi : hi' ≤ hi) : b.Objects lo' hi' :=
  fun k hk hk' => h k (by omega) (by omega)

theorem Objects.set (h : b.Objects lo hi) (i : Nat) {c : Cell T}
    (hc : c ≠ .raw) : (b.set i c).Objects lo hi := by
  intro k hk hk'
  by_cases hki : k = i
  · subst hki
    rwa [cell_set_self]
  · rw [(touched_set b i c).cell k (by omega)]
    exact h k hk hk'

/-! ## The operations -/

theorem read_live (hi : i < b.size) (hx : b.cell i = .live x) : b.read i = .ok x := by
  simp [read, if_pos hi, hx]

theorem take_live (hi : i < b.size) (hx : b.cell i = .live x) :
    b.take i = .ok (x, b.set i .moved) := by
  simp only [take, ok_bind (read_live hi hx)]
  rfl

theorem construct_ok (hi : i < b.size) (x : T) : b.construct i x = .ok (b.set i (.live x)) :=
  if_pos hi

/-- What destroying an object at `i` needs. -/
def Destructible (trivial : Bool) (b : Storage T) (i : Nat) : Prop :=
  trivial = true ∨ i < b.size ∧ b.cell i ≠ .raw

theorem destruct_ok {trivial : Bool} (h : b.Destructible trivial i) :
    ∃ b', b.destruct trivial i = .ok b' ∧ b.Touched i (i + 1) b' ∧ (trivial = true → b' = b) := by
  cases htr : trivial with
  | true => exact ⟨b, rfl, Touched.refl _ _ _, fun _ => rfl⟩
  | false =>
    obtain h | ⟨hi, hraw⟩ := h
    · rw [htr] at h
      cases h
    · refine ⟨b.set i .raw, ?_, touched_set b i _, nofun⟩
      cases hc : b.cell i with
      | raw => exact absurd hc hraw
      | moved => simp [destruct, hi, hc]
      | live x => simp [destruct, hi, hc]

theorem Objects.destructible (h : b.Objects lo hi)
    (hsize : hi ≤ b.size) (hlo : lo ≤ i) (hhi : i < hi) (trivial : Bool) :
    b.Destructible trivial i :=
  .inr ⟨by omega, h i hlo hhi⟩

theorem Objects.touched (h : b.Objects lo hi)
    (ht : b.Touched lo' hi' b') (hapart : hi ≤ lo' ∨ hi' ≤ lo) : b'.Objects lo hi := by
  intro k hk hk'
  rw [ht.cell k (by omega)]
  exact h k hk hk'

end Storage

end Dgos
