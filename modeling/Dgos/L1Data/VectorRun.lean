import Dgos.Core.Lts
import Dgos.L1Data.VectorRep

/-!
# `ext::vector` against lists

A program holds vectors under names and applies the members of `ext::vector` to them; next to the
vectors stands, for every name, the list the same operations build. `Legal` is what the language
asks of every caller (positions inside of the vector, no construction from the object that is
being constructed); `Sound` is what this implementation asks beyond that.

Results:

* `exec_ok`: a legal and sound call meets no error, and if it reports success every vector has
  the elements of its list.
* `run_lists`: so it is after every run of such calls, and no vector is larger than its capacity.
* `copy_is_empty`: what the source gets wrong, on a vector with one element: a copy is empty, an
  inserted range is lost, and three elements inserted where there is room for two are written
  behind the storage.
-/
namespace Dgos.L1.Vector

open List Function

open Storage (Err)

variable {T : Type} {e : Elem T} {mem : Bool}

abbrev Store (T : Type) := Nat → Vec T

abbrev Lists (T : Type) := Nat → List T

inductive Op (T : Type) where
  | construct (a : Nat)
  | constructCount (a count : Nat) (value : T)
  | constructDefault (a count : Nat)
  | constructRange (a : Nat) (xs : List T)
  | constructList (a : Nat) (init : List T) (garbage : Nat)
  | constructCopy (a other : Nat)
  | constructMove (a other : Nat)
  | pushBack (a : Nat) (value : Ref T)
  | pushBackMove (a : Nat) (value : T)
  | emplaceBack (a : Nat) (args : T)
  | popBack (a : Nat)
  | insert (a pos : Nat) (value : Ref T)
  | insertMove (a pos : Nat) (value : T)
  | insertCount (a pos count : Nat) (value : Ref T)
  | insertRange (a pos : Nat) (xs : List T)
  | insertList (a pos : Nat) (ilist : List T)
  | erase (a pos : Nat)
  | eraseRange (a first last : Nat)
  | resize (a count : Nat)
  | resizeValue (a count : Nat) (value : Ref T)
  | assignCount (a count : Nat) (value : T)
  | assignRange (a : Nat) (xs : List T)
  | assignList (a : Nat) (ilist : List T)
  | reserve (a newCap : Nat)
  | shrinkToFit (a : Nat)
  | clear (a : Nat)
  | copyAssign (a other : Nat)
  | moveAssign (a other : Nat)
  | listAssign (a : Nat) (ilist : List T)

/-! ## The vectors -/

/-- A member that reports whether it had the memory. -/
def report (st : Store T) (a : Nat) (x : Except Err (Bool × Vec T)) :
    Except Err (Bool × Store T) := do
  let (r, v) ← x
  return (r, update st a v)

/-- A member that reports nothing. -/
def quiet (st : Store T) (a : Nat) (x : Except Err (Vec T)) : Except Err (Bool × Store T) := do
  let v ← x
  return (true, update st a v)

/-- A constructor that panics when there is no memory. -/
def panics (st : Store T) (a : Nat) (x : Except Err (Option (Vec T))) :
    Except Err (Bool × Store T) := do
  match ← x with
  | some v => return (true, update st a v)
  | none => return (false, st)

/-- mirrors kernel/lib/cc/vector.h:411-434 -/
def moveInto (st : Store T) (a other : Nat) : Store T :=
  update (update st a (st other)) other .empty

/-- The storage changes hands unless the two compare equal; mirrors
kernel/lib/cc/vector.h:466-486 -/
def moveAssign (e : Elem T) (st : Store T) (a other : Nat) : Except Err (Bool × Store T) := do
  let xs ← (st a).elements
  let ys ← (st other).elements
  return (true, if equal e xs ys then st else moveInto st a other)

/-- One call, with what it reports. -/
def exec (e : Elem T) (mem : Bool) (st : Store T) : Op T → Except Err (Bool × Store T)
  | .construct a => .ok (true, update st a .empty)
  | .constructCount a count value => quiet st a (constructCount e mem count value)
  | .constructDefault a count => panics st a (constructDefault e mem count)
  | .constructRange a xs => quiet st a (constructRange e mem xs)
  | .constructList a init garbage => quiet st a (constructList e mem garbage init)
  | .constructCopy a other => panics st a (constructCopy e mem (st other))
  | .constructMove a other => .ok (true, moveInto st a other)
  | .pushBack a value => report st a (pushBack e mem (st a) value)
  | .pushBackMove a value => report st a (pushBackMove e mem (st a) value)
  | .emplaceBack a args => report st a (emplaceBack e mem (st a) args)
  | .popBack a => quiet st a (popBack e (st a))
  | .insert a pos value => report st a (insert e mem (st a) pos value)
  | .insertMove a pos value => report st a (insertMove e mem (st a) pos value)
  | .insertCount a pos count value => report st a (insertCount e mem (st a) pos count value)
  | .insertRange a pos xs => report st a (insertRange e mem (st a) pos xs)
  | .insertList a pos ilist => report st a (insertList e mem (st a) pos ilist)
  | .erase a pos => quiet st a (erase e (st a) pos)
  | .eraseRange a first last => quiet st a (eraseRange e (st a) first last)
  | .resize a count => report st a (resize e mem (st a) count)
  | .resizeValue a count value => report st a (resizeValue e mem (st a) count value)
  | .assignCount a count value => report st a (assignCount e mem (st a) count value)
  | .assignRange a xs => report st a (assignRange e mem (st a) xs)
  | .assignList a ilist => report st a (assignList e mem (st a) ilist)
  | .reserve a newCap => report st a (reserve e mem (st a) newCap)
  | .shrinkToFit a => quiet st a (shrinkToFit e mem (st a))
  | .clear a => quiet st a (clear e (st a))
  | .copyAssign a other =>
    quiet st a (if a = other then selfAssign e mem (st a) else copyAssign e mem (st a) (st other))
  | .moveAssign a other => moveAssign e st a other
  | .listAssign a ilist => quiet st a (listAssign e mem (st a) ilist)

/-! ## The lists -/

/-- `count` elements from `pos` on replaced by `xs`. -/
def splice (l : List T) (pos count : Nat) (xs : List T) : List T :=
  l.take pos ++ xs ++ l.drop (pos + count)

def resized (l : List T) (count : Nat) (x : T) : List T :=
  l.take count ++ List.replicate (count - l.length) x

/-- What is left of a list that was moved from is not specified by the language; here it is
empty, or as it was if the two compared equal. -/
def moved (L : Lists T) (a other : Nat) : Lists T :=
  update (update L a (L other)) other []

def next (e : Elem T) (L : Lists T) : Op T → Lists T
  | .construct a => update L a []
  | .constructCount a count value => update L a (List.replicate count value)
  | .constructDefault a count => update L a (List.replicate count e.dflt)
  | .constructRange a xs => update L a xs
  | .constructList a init _ => update L a init
  | .constructCopy a other => update L a (L other)
  | .constructMove a other => moved L a other
  | .pushBack a value => update L a (L a ++ [value.eval e (L a)])
  | .pushBackMove a value => update L a (L a ++ [value])
  | .emplaceBack a args => update L a (L a ++ [args])
  | .popBack a => update L a (L a).dropLast
  | .insert a pos value => update L a (splice (L a) pos 0 [value.eval e (L a)])
  | .insertMove a pos value => update L a (splice (L a) pos 0 [value])
  | .insertCount a pos count value =>
    update L a (splice (L a) pos 0 (List.replicate count (value.eval e (L a))))
  | .insertRange a pos xs => update L a (splice (L a) pos 0 xs)
  | .insertList a pos ilist => update L a (splice (L a) pos 0 ilist)
  | .erase a pos => update L a (splice (L a) pos 1 [])
  | .eraseRange a first last => update L a (splice (L a) first (last - first) [])
  | .resize a count => update L a (resized (L a) count e.dflt)
  | .resizeValue a count value => update L a (resized (L a) count (value.eval e (L a)))
  | .assignCount a count value => update L a (List.replicate count value)
  | .assignRange a xs => update L a xs
  | .assignList a ilist => update L a ilist
  | .reserve _ _ => L
  | .shrinkToFit _ => L
  | .clear a => update L a []
  | .copyAssign a other => update L a (L other)
  | .moveAssign a other =>
    if equal e (L a) (L other) then update L a (L other) else moved L a other
  | .listAssign a ilist => update L a ilist

/-! ## Which calls are right -/

/-- A reference into the vector refers to an element of it. -/
def Ref.Legal (l : List T) : Ref T → Prop
  | .value _ => True
  | .own i => i < l.length

def Legal (L : Lists T) : Op T → Prop
  | .constructCopy a other => a ≠ other
  | .constructMove a other => a ≠ other
  | .pushBack a value => value.Legal (L a)
  | .popBack a => L a ≠ []
  | .insert a pos value => pos ≤ (L a).length ∧ value.Legal (L a)
  | .insertMove a pos _ => pos ≤ (L a).length
  | .insertCount a pos _ value => pos ≤ (L a).length ∧ value.Legal (L a)
  | .insertRange a pos _ => pos ≤ (L a).length
  | .insertList a pos _ => pos ≤ (L a).length
  | .erase a pos => pos < (L a).length
  | .eraseRange a first last => first ≤ last ∧ last ≤ (L a).length
  | .resizeValue a _ value => value.Legal (L a)
  | _ => True

/-- Room for one element at the end. -/
def RoomForOne (e : Elem T) (v : Vec T) : Prop :=
  v.sz + 1 ≤ v.capacity ∨ Fits e (v.capacity + 1)

/-- What the implementation asks of its callers. -/
def Sound (e : Elem T) (mem : Bool) (st : Store T) (L : Lists T) : Op T → Prop
  | .construct _ => True
  | .constructCount _ count _ => mem = true ∧ Room e count
  | .constructDefault _ count => Room e count
  | .constructRange _ xs => mem = true ∧ Room e xs.length
  | .constructList _ init garbage =>
    mem = true ∧ Room e init.length ∧ (garbage = 0 ∨ garbage < init.length)
  | .constructCopy _ other => L other = []
  | .constructMove _ _ => True
  | .pushBack a value => RoomForOne e (st a) ∧ Usable (st a) (st a).sz 1 value
  | .pushBackMove a _ => RoomForOne e (st a)
  | .emplaceBack a _ => RoomForOne e (st a)
  | .popBack _ => True
  | .insert a pos value => SpaceFor e (st a) 1 ∧ Usable (st a) pos 1 value
  | .insertMove a _ _ => SpaceFor e (st a) 1
  | .insertCount a pos count value => SpaceFor e (st a) count ∧ Usable (st a) pos count value ∧
    (0 < count ∨ e.trivial = true ∨ pos = (L a).length)
  | .insertRange a pos xs => xs = [] ∧ (e.trivial = true ∨ pos = (L a).length)
  | .insertList a pos ilist => ilist = [] ∧ (e.trivial = true ∨ pos = (L a).length)
  | .erase _ _ => True
  | .eraseRange _ first last => first < last ∨ e.trivial = true
  | .resize _ count => Room e count
  | .resizeValue a count value =>
    Room e count ∧ (count < (st a).sz ∨ Usable (st a) (st a).sz (count - (st a).sz) value)
  | .assignCount _ count _ => Room e count
  | .assignRange _ xs => Room e xs.length
  | .assignList _ ilist => Room e ilist.length
  | .reserve _ newCap => Room e newCap
  | .shrinkToFit a => Room e (st a).sz ∧ (mem = true ∨ L a = [])
  | .clear _ => True
  | .copyAssign a other =>
    if a = other then e.trivial = true ∨ L a = [] else mem = true ∧ Room e (L other).length
  | .moveAssign a other => equal e (L a) (L other) = true → L a = L other
  | .listAssign _ ilist => mem = true ∧ Room e ilist.length

/-! ## One call -/

/-- Every vector has the elements of its list. -/
def Represents (st : Store T) (L : Lists T) : Prop := ∀ a, Rep (st a) (L a)

variable {st : Store T} {L : Lists T} {l : List T} {a pos : Nat}

theorem splice_append (l1 l2 xs : List T) : splice (l1 ++ l2) l1.length 0 xs = l1 ++ xs ++ l2 := by
  simp [splice]

theorem splice_erase (l1 xs l2 : List T) :
    splice (l1 ++ xs ++ l2) l1.length xs.length [] = l1 ++ l2 := by
  simp [splice, ← drop_drop]

section

variable (h : Represents st L)
include h

theorem Represents.replace {v : Vec T} (a : Nat) (hv : Rep v l) :
    Represents (update st a v) (update L a l) := by
  intro c
  by_cases hc : c = a
  · subst hc
    rwa [update_self, update_self]
  · rw [update_of_ne hc, update_of_ne hc]
    exact h c

/-- A call that meets no error, and keeps the elements right if it reports success. -/
def Keeps (x : Except Err (Bool × Store T)) (L : Lists T) : Prop :=
  ∃ r st, x = .ok (r, st) ∧ (r = true → Represents st L)

theorem Represents.report (a : Nat) {x : Except Err (Bool × Vec T)}
    {b : Bool} (hx : Reports b x (Rep · l)) : Keeps (report st a x) (update L a l) := by
  obtain ⟨r, w, hok, -, hw⟩ := hx
  refine ⟨r, update st a w, ?_, fun hr => h.replace a (hw hr)⟩
  simp only [Vector.report, ok_bind hok]
  rfl

theorem Represents.quiet (a : Nat) {x : Except Err (Vec T)} (hx : Returns x (Rep · l)) :
    Keeps (quiet st a x) (update L a l) := by
  obtain ⟨w, hok, hw⟩ := hx
  refine ⟨true, update st a w, ?_, fun _ => h.replace a hw⟩
  simp only [Vector.quiet, ok_bind hok]
  rfl

theorem Represents.panics (a : Nat) {x : Except Err (Option (Vec T))}
    (hx : Returns x fun o => ∀ w, o = some w → Rep w l) : Keeps (panics st a x) (update L a l) := by
  obtain ⟨o, hok, hw⟩ := hx
  cases o with
  | none => exact ⟨false, st, by simp only [Vector.panics, ok_bind hok]; rfl, nofun⟩
  | some w =>
    refine ⟨true, update st a w, ?_, fun _ => h.replace a (hw w rfl)⟩
    simp only [Vector.panics, ok_bind hok]
    rfl

theorem Represents.moveInto (a other : Nat) : Represents (moveInto st a other) (moved L a other) :=
  (h.replace a (h other)).replace other rep_empty

/-- A vector as the elements before a position and those from it on. -/
theorem Represents.split (hpos : pos ≤ (L a).length) :
    ∃ l1 l2, L a = l1 ++ l2 ∧ pos = l1.length ∧ Rep (st a) (l1 ++ l2) := by
  refine ⟨(L a).take pos, (L a).drop pos, (take_append_drop pos (L a)).symm, ?_, ?_⟩
  · rw [length_take]
    omega
  · rw [take_append_drop]
    exact h a

theorem Represents.insertRange
    (hpos : pos ≤ (L a).length) (hend : e.trivial = true ∨ pos = (L a).length) :
    Keeps (Vector.report st a (insertRange e mem (st a) pos []))
      (update L a (splice (L a) pos 0 [])) := by
  obtain ⟨l1, l2, hl, rfl, hrep⟩ := h.split hpos
  rw [hl, splice_append, append_nil]
  refine h.report a (insertRange_nil_ok mem hrep ?_)
  obtain htr | hlen := hend
  · exact .inl htr
  · rw [hl, length_append] at hlen
    exact .inr (length_eq_zero_iff.1 (by omega))

theorem Represents.eraseRange {first last : Nat} (hle : first ≤ last)
    (hlast : last ≤ (L a).length) (hsome : first < last ∨ e.trivial = true) :
    Keeps (Vector.quiet st a (eraseWith e (st a) first (last - first)))
      (update L a (splice (L a) first (last - first) [])) := by
  obtain ⟨l1, l, hl, rfl, hrep⟩ := h.split (le_trans hle hlast)
  have hlen : last - l1.length ≤ l.length := by
    rw [hl, length_append] at hlast
    omega
  obtain ⟨xs, l2, rfl, hxs⟩ : ∃ xs l2, l = xs ++ l2 ∧ xs.length = last - l1.length :=
    ⟨l.take (last - l1.length), l.drop (last - l1.length), (take_append_drop _ _).symm, by
      rw [length_take]; omega⟩
  rw [← append_assoc] at hl hrep
  rw [hl, ← hxs, splice_erase]
  refine h.quiet a (eraseWith_ok hrep ?_)
  exact hsome.imp_left fun _ => by omega

theorem Represents.resizeValue {count : Nat} {value : Ref T} (hroom : Room e count)
    (hu : count < (st a).sz ∨ Usable (st a) (st a).sz (count - (st a).sz) value) :
    Keeps (Vector.report st a (resizeValue e mem (st a) count value))
      (update L a (resized (L a) count (value.eval e (L a)))) := by
  have hsz := (h a).sz
  refine h.report (b := mem) a ?_
  by_cases hlt : count < (st a).sz
  · rw [resized, show count - (L a).length = 0 by omega, replicate_zero, append_nil]
    exact resizeValue_shrinks mem (h a) hlt value
  · rw [resized, take_of_length_le (by omega)]
    exact resizeValue_grows mem (h a) (le_of_not_gt hlt) hroom (hu.resolve_left hlt)

theorem Represents.moveAssign {other : Nat} (heq : equal e (L a) (L other) = true → L a = L other) :
    Keeps (moveAssign e st a other)
      (if equal e (L a) (L other) then update L a (L other) else moved L a other) := by
  refine ⟨true, if equal e (L a) (L other) then st else Vector.moveInto st a other, ?_, fun _ => ?_⟩
  · simp only [Vector.moveAssign, ok_bind (h a).elements, ok_bind (h other).elements]
    rfl
  · split_ifs with hsame
    · rw [← heq hsame, update_eq_self]
      exact h
    · exact h.moveInto a other

theorem exec_ok {op : Op T} (hlegal : Legal L op) (hs : Sound e mem st L op) :
    Keeps (exec e mem st op) (next e L op) := by
  cases op with
  | construct a => exact ⟨true, _, rfl, fun _ => h.replace a rep_empty⟩
  | constructCount a count value =>
    obtain ⟨rfl, hroom⟩ := hs
    exact h.quiet a (constructCount_ok hroom value)
  | constructDefault a count => exact h.panics a (constructDefault_ok mem hs)
  | constructRange a xs =>
    obtain ⟨rfl, hroom⟩ := hs
    exact h.quiet a (assignRange_ok true rep_empty hroom).returns
  | constructList a init garbage =>
    obtain ⟨rfl, hroom, hg⟩ := hs
    exact h.quiet a (constructList_ok hroom hg)
  | constructCopy a other =>
    have hnil : L other = [] := hs
    have hsz := (h other).sz
    rw [hnil] at hsz
    have hroom : Room e (st other).sz := by
      rw [hsz]
      simp [Room]
    have hcopy := h.panics a (constructCopy_ok mem hroom)
    show Keeps _ (update L a (L other))
    rwa [hnil]
  | constructMove a other => exact ⟨true, _, rfl, fun _ => h.moveInto a other⟩
  | pushBack a value => exact h.report a (pushWith_ok mem (h a) hs.1 hs.2)
  | pushBackMove a value =>
    exact h.report a (pushWith_ok mem (h a) hs (show Usable _ _ _ (.value value) from trivial))
  | emplaceBack a args =>
    exact h.report a (pushWith_ok mem (h a) hs (show Usable _ _ _ (.value args) from trivial))
  | popBack a =>
    have hne : L a ≠ [] := hlegal
    have hrep := h a
    rw [← dropLast_concat_getLast hne] at hrep
    obtain ⟨w, hok, hw, -⟩ := popBack_ok hrep
    exact h.quiet a ⟨w, hok, hw⟩
  | insert a pos value =>
    obtain ⟨l1, l2, hl, rfl, hrep⟩ := h.split hlegal.1
    simp only [exec, next, hl, splice_append]
    exact h.report a (insert_ok mem hrep hs.1 hs.2)
  | insertMove a pos value =>
    obtain ⟨l1, l2, hl, rfl, hrep⟩ := h.split hlegal
    simp only [exec, next, hl, splice_append]
    exact h.report a (insert_ok mem hrep hs (show Usable (st a) l1.length 1 (.value value) from
      trivial))
  | insertCount a pos count value =>
    obtain ⟨l1, l2, hl, rfl, hrep⟩ := h.split hlegal.1
    obtain ⟨hspace, hu, hcount⟩ := hs
    simp only [exec, next, hl, splice_append]
    refine h.report a (insertCount_ok mem hrep hspace hu ?_)
    obtain hc | hc | hlen := hcount
    · exact .inl hc
    · exact .inr (.inl hc)
    · rw [hl, length_append] at hlen
      exact .inr (.inr (length_eq_zero_iff.1 (by omega)))
  | insertRange a pos xs =>
    obtain ⟨rfl, hend⟩ := hs
    exact h.insertRange hlegal hend
  | insertList a pos ilist =>
    obtain ⟨rfl, hend⟩ := hs
    exact h.insertRange hlegal hend
  | erase a pos =>
    have herase := h.eraseRange (e := e) (Nat.le_succ pos) hlegal (.inl (Nat.lt_succ_self pos))
    rwa [show pos.succ - pos = 1 by omega] at herase
  | eraseRange a first last => exact h.eraseRange hlegal.1 hlegal.2 hs
  | resize a count => exact h.resizeValue hs (.inr trivial)
  | resizeValue a count value => exact h.resizeValue hs.1 hs.2
  | assignCount a count value => exact h.report a (assignCount_ok mem (h a) hs value)
  | assignRange a xs => exact h.report a (assignRange_ok mem (h a) hs)
  | assignList a ilist => exact h.report a (assignList_ok mem (h a) hs)
  | reserve a newCap =>
    have hkeep := h.report a ((reserve_ok mem (h a) hs).imp fun _ hw => hw.1)
    rwa [update_eq_self] at hkeep
  | shrinkToFit a =>
    have hkeep := h.quiet a (shrinkToFit_ok mem (h a) hs.1 hs.2)
    rwa [update_eq_self] at hkeep
  | clear a =>
    obtain ⟨w, hok, hw, -⟩ := clear_ok (h a)
    exact h.quiet a ⟨w, hok, hw⟩
  | copyAssign a other =>
    by_cases heq : a = other
    · subst heq
      simp only [Sound, if_true] at hs
      simp only [exec, next, if_true]
      exact h.quiet a (selfAssign_ok mem (h a) hs)
    · simp only [Sound, if_neg heq] at hs
      obtain ⟨rfl, hroom⟩ := hs
      simp only [exec, next, if_neg heq]
      exact h.quiet a (copyAssign_ok (h a) (h other) hroom)
  | moveAssign a other => exact h.moveAssign hs
  | listAssign a ilist =>
    obtain ⟨rfl, hroom⟩ := hs
    exact h.quiet a (assignList_ok true (h a) hroom).returns

end

/-! ## Runs -/

/-- The vectors of a program next to the lists its calls build. -/
def lts (e : Elem T) : LTS (Store T × Lists T) (Bool × Op T) where
  init x := x = (fun _ => .empty, fun _ => [])
  step x l x' := Legal x.2 l.2 ∧ Sound e l.1 x.1 x.2 l.2 ∧
    exec e l.1 x.1 l.2 = .ok (true, x'.1) ∧ x'.2 = next e x.2 l.2

theorem represents_inductive (e : Elem T) : (lts e).Inductive fun x => Represents x.1 x.2 where
  init x hx := by
    subst hx
    exact fun _ => rep_empty
  step x l x' h hstep := by
    obtain ⟨hlegal, hs, heq, hnext⟩ := hstep
    obtain ⟨r, st, hok, hkeep⟩ := exec_ok h hlegal hs
    cases heq.symm.trans hok
    rw [hnext]
    exact hkeep rfl

/-- **A vector is a list**, as long as the calls are sound: after every run, reading a vector from
its first to its last element gives the list that the same operations build, its size is at most
its capacity, and the next legal and sound call meets no error. -/
theorem run_lists (e : Elem T) (x : Store T × Lists T) (hx : (lts e).Reachable x) :
    (∀ a, (x.1 a).elements = .ok (x.2 a) ∧ (x.1 a).sz ≤ (x.1 a).capacity) ∧
      ∀ mem op, Legal x.2 op → Sound e mem x.1 x.2 op → ∃ r st, exec e mem x.1 op = .ok (r, st) := by
  have h := (represents_inductive e).reachable x hx
  refine ⟨fun a => ⟨(h a).elements, (h a).le⟩, fun mem op hlegal hs => ?_⟩
  obtain ⟨r, st, hok, -⟩ := exec_ok h hlegal hs
  exact ⟨r, st, hok⟩

/-- Elements of eight bytes without a destructor. -/
def word : Elem Nat := ⟨8, by decide, true, 0, fun x y => x != y⟩

/-- The vectors and lists after a call that has memory. -/
def after (x : Store Nat × Lists Nat) (op : Op Nat) : Store Nat × Lists Nat :=
  (match exec word true x.1 op with | .ok r => r.2 | .error _ => x.1, next word x.2 op)

def pushed := after (fun _ => .empty, fun _ => []) (.pushBack 0 (.value 7))

def inserted := after pushed (.insert 0 0 (.value 9))

theorem run_lists_pushed : ((after inserted (.popBack 0)).1 0).elements = .ok [9] := by
  have h1 : (lts word).step (fun _ => .empty, fun _ => []) (true, .pushBack 0 (.value 7)) pushed :=
    ⟨trivial, ⟨.inr (show 1 * 8 + 16 ≤ 2 ^ 63 by decide), trivial⟩, rfl, rfl⟩
  have h2 : (lts word).step pushed (true, .insert 0 0 (.value 9)) inserted :=
    ⟨⟨by decide, trivial⟩, ⟨.inl (by decide), trivial⟩, rfl, rfl⟩
  have h3 : (lts word).step inserted (true, .popBack 0) (after inserted (.popBack 0)) :=
    ⟨nofun, trivial, rfl, rfl⟩
  exact ((run_lists word _ ⟨_, _, rfl, .cons h1 (.cons h2 (.cons h3 (.nil _)))⟩).1 0).1

/-- The elements of the vector `a` after a run of calls that have memory. -/
def contents (a : Nat) (ops : List (Op Nat)) : Except Err (List Nat) := do
  let st ← ops.foldlM (fun st op => Prod.snd <$> exec word true st op) fun _ => .empty
  (st a).elements

/-- The list of the same calls. -/
def listOf (a : Nat) (ops : List (Op Nat)) : List Nat := ops.foldl (next word) (fun _ => []) a

/-- The copy of a vector with one element is empty; a range inserted at the end is not there;
and of three elements inserted where there is room for two, one is written behind the storage. -/
theorem copy_is_empty : (contents 1 [.pushBack 0 (.value 7), .constructCopy 1 0] = .ok [] ∧
      listOf 1 [.pushBack 0 (.value 7), .constructCopy 1 0] = [7]) ∧
    (contents 0 [.pushBack 0 (.value 7), .insertRange 0 1 [8]] = .ok [7] ∧
      listOf 0 [.pushBack 0 (.value 7), .insertRange 0 1 [8]] = [7, 8]) ∧
    (contents 0 [.reserve 0 3, .pushBack 0 (.value 7), .insertCount 0 0 3 (.value 8)] =
        .error .outOfBounds ∧
      listOf 0 [.reserve 0 3, .pushBack 0 (.value 7), .insertCount 0 0 3 (.value 8)] =
        [8, 8, 8, 7]) :=
  ⟨⟨rfl, rfl⟩, ⟨rfl, rfl⟩, rfl, rfl⟩

end Dgos.L1.Vector
