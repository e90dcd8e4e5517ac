import Dgos.Core.Storage

/-!
# `ext::vector`

The growable array of the kernel's C++ library (`kernel/lib/cc/vector.h`): a pointer to storage
for `capacity` elements of which the first `sz` hold objects. The storage is a row of cells
(`Dgos.Core.Storage`), so that constructing outside of it, destroying what is not there and
reading a destroyed or moved-from element are errors of the model. Sizes are `size_t`. Whether
`malloc` has memory is the argument `mem` of every function that allocates.

A parameter of type `_T const&` is a `Ref`: a value of the caller's, or an element of the vector
itself, which is read when the source reads it.
-/
namespace Dgos.L1.Vector

open Storage (Err)

variable {T : Type}

/-- What the vector uses of its element type: the size, whether the destructor is trivial,
`value_type()` and `operator!=`. -/
structure Elem (T : Type) where
  size : Nat
  pos : 0 < size
  trivial : Bool
  dflt : T
  ne : T → T → Bool

structure Vec (T : Type) where
  m : Option (Storage T)
  capacity : Nat
  sz : Nat

/-- `vector()`, and what a moved-from vector is left as; mirrors vector.h:334-347 -/
def Vec.empty : Vec T := ⟨none, 0, 0⟩

/-- The storage `__m` points to; a null pointer points to no storage at all. -/
def Vec.mem (v : Vec T) : Storage T := v.m.getD ⟨0, fun _ => .raw⟩

def Vec.setMem (v : Vec T) (b : Storage T) : Vec T := { v with m := v.m.map fun _ => b }

inductive Ref (T : Type) where
  | value (x : T)
  | own (i : Nat)

/-- Reading a `_T const&` that was taken when the vector was `v0`, now that it is `v` with the
storage `b`: storage is only replaced by storage of another capacity. -/
def Ref.get (v0 v : Vec T) (b : Storage T) : Ref T → Except Err T
  | .value x => .ok x
  | .own i => if v.capacity = v0.capacity then b.read i else .error .dangling

/-! ## Loops over storage -/

/-- Constructing `n` elements one after the other from `first` on; `get` says what the element at
an index is constructed from, given what the storage holds by then. -/
def constructFrom (get : Storage T → Nat → Except Err T) : Nat → Nat → Storage T →
    Except Err (Storage T)
  | 0, _, b => .ok b
  | n + 1, first, b => do
    let x ← get b first
    let b ← b.construct first x
    constructFrom get n (first + 1) b

/-- Reading the element `k` of a range that is not part of the vector. -/
def outside (xs : List T) (k : Nat) : Except Err T :=
  match xs[k]? with
  | some x => .ok x
  | none => .error .outOfBounds

/-- mirrors algorithm.h:218-228; the value is read anew for every element. -/
def uninitializedFill (value : Storage T → Except Err T) (count first : Nat) (b : Storage T) :
    Except Err (Storage T) :=
  constructFrom (fun b _ => value b) count first b

/-- mirrors algorithm.h:205-216 -/
def uninitializedCopy (xs : List T) (out : Nat) (b : Storage T) : Except Err (Storage T) :=
  constructFrom (fun _ k => outside xs (k - out)) xs.length out b

/-- mirrors algorithm.h:243-254 -/
def uninitializedMove : Nat → Nat → Storage T × Storage T → Except Err (Storage T × Storage T)
  | 0, _, x => .ok x
  | n + 1, i, (src, out) => do
    let (x, src) ← src.take i
    let out ← out.construct i x
    uninitializedMove n (i + 1) (src, out)

/-- The destructor loop of `reserve`; mirrors vector.h:724-725 -/
def destructUp (e : Elem T) : Nat → Nat → Storage T → Except Err (Storage T)
  | 0, _, b => .ok b
  | n + 1, i, b => do
    let b ← b.destruct e.trivial i
    destructUp e n (i + 1) b

/-- The destructor loop of `resize`; mirrors vector.h:986-987 -/
def destructDown (e : Elem T) (count : Nat) : Nat → Storage T → Except Err (Storage T)
  | 0, b => .ok b
  | i + 1, b =>
    if count < i + 1 then do
      let b ← b.destruct e.trivial i
      destructDown e count i b
    else .ok b

/-- The loop of `__make_space`; mirrors vector.h:324-327 -/
def openGap (e : Elem T) (count pos : Nat) : Nat → Storage T → Except Err (Storage T)
  | 0, b => .ok b
  | i + 1, b =>
    if pos < i + 1 then do
      let (x, b) ← b.take i
      let b ← b.construct (i + 1 + count - 1) x
      let b ← b.destruct e.trivial i
      openGap e count pos i b
    else .ok b

/-- The loop of `erase`, `n` elements to go; mirrors vector.h:893-896 -/
def closeGap (e : Elem T) (count : Nat) : Nat → Nat → Storage T → Except Err (Storage T)
  | 0, _, b => .ok b
  | n + 1, p, b => do
    let b ← b.destruct e.trivial p
    let (x, b) ← b.take (p + count)
    let b ← b.construct p x
    closeGap e count n (p + 1) b

/-! ## Capacity -/

/-- mirrors kernel/lib/bitsearch.h:185-189 -/
def bitLog2 (n : Nat) : Nat := Nat.log2 n + if n % 2 ^ Nat.log2 n ≠ 0 then 1 else 0

def mallocOverhead : Nat := 16

variable (e : Elem T) (mem : Bool) (v : Vec T)

/-- mirrors vector.h:275-295 -/
def bestCap (amount : Nat) : Nat :=
  let reqCap := (v.capacity + amount) % 2 ^ 64
  let reqSz := reqCap * e.size % 2 ^ 64
  let bestSz := (2 ^ (bitLog2 ((reqSz + mallocOverhead) % 2 ^ 64) % 64) + 2 ^ 64 -
    mallocOverhead) % 2 ^ 64
  let minSz := 64 - mallocOverhead
  (if minSz ≤ bestSz then bestSz else minSz) / e.size

/-- `malloc(n * sizeof(T))`: the product wraps, and the storage is what was asked for; mirrors
memory.h:52-55 -/
def allocate (n : Nat) : Option (Storage T) :=
  if mem then some ⟨n * e.size % 2 ^ 64 / e.size, fun _ => .raw⟩ else none

/-- mirrors vector.h:715-732 -/
def reserve (newCap : Nat) : Except Err (Bool × Vec T) :=
  if v.capacity < newCap then
    match allocate e mem newCap with
    | none => .ok (false, v)
    | some newP => do
      let (old, newP) ← uninitializedMove v.sz 0 (v.mem, newP)
      let _ ← destructUp e v.sz 0 old
      return (true, ⟨some newP, newCap, v.sz⟩)
  else .ok (true, v)

/-- mirrors vector.h:297-305 -/
def grow (amount : Nat) : Except Err (Bool × Vec T) :=
  if v.capacity < (v.sz + amount) % 2 ^ 64 then reserve e mem v (bestCap e v amount)
  else .ok (true, v)

/-- Room for `count` more elements, as `__make_space` asks for it; mirrors
vector.h:311-318 -/
def growFor (count : Nat) : Except Err (Bool × Vec T) :=
  if v.capacity < (v.sz + count) % 2 ^ 64 then
    grow e mem v ((v.sz + count) % 2 ^ 64 - v.capacity)
  else .ok (true, v)

/-- The place of the gap, or null; mirrors vector.h:307-329 -/
def makeSpace (pos count : Nat) : Except Err (Option Nat × Vec T) := do
  let (grown, w) ← growFor e mem v count
  if grown then
    let b ← openGap e count pos w.sz w.mem
    return (w.m.map fun _ => pos, w.setMem b)
  else return (none, w)

/-- mirrors vector.h:741-751; a null answer of `allocate` is not looked at. -/
def shrinkToFit : Except Err (Vec T) :=
  if v.sz < v.capacity then
    match allocate e mem v.sz with
    | none => do
      let _ ← uninitializedMove v.sz 0 (v.mem, (Vec.empty : Vec T).mem)
      return ⟨none, v.sz, v.sz⟩
    | some tmp => do
      let (_, tmp) ← uninitializedMove v.sz 0 (v.mem, tmp)
      return ⟨some tmp, v.sz, v.sz⟩
  else .ok v

/-! ## Elements -/

/-- mirrors vector.h:969-973 -/
def popBack : Except Err (Vec T) := do
  let b ← v.mem.destruct e.trivial (v.sz - 1)
  return { v.setMem b with sz := v.sz - 1 }

def popAll : Nat → Vec T → Except Err (Vec T)
  | 0, v => .ok v
  | n + 1, v => do
    let v ← popBack e v
    popAll n v

/-- mirrors vector.h:753-762 -/
def clear : Except Err (Vec T) :=
  if e.trivial then .ok { v with sz := 0 } else popAll e v.sz v

/-- mirrors vector.h:924-927 -/
def growOne : Except Err (Bool × Vec T) :=
  if v.capacity < v.sz + 1 then grow e mem v 1 else .ok (true, v)

/-- What the overloads of `push_back` and `emplace_back` share: room for one more, then the
element is constructed from `value`; mirrors vector.h:921-967 -/
def pushWith (value : Ref T) : Except Err (Bool × Vec T) := do
  let (grown, w) ← growOne e mem v
  if grown then
    let x ← value.get v w w.mem
    let b ← w.mem.construct w.sz x
    return (true, { w.setMem b with sz := w.sz + 1 })
  else return (false, w)

/-- mirrors vector.h:921-934 -/
def pushBack (value : Ref T) : Except Err (Bool × Vec T) :=
  pushWith e mem v value

/-- mirrors vector.h:936-951 -/
def pushBackMove (value : T) : Except Err (Bool × Vec T) :=
  pushWith e mem v (.value value)

/-- mirrors vector.h:953-967 -/
def emplaceBack (args : T) : Except Err (Bool × Vec T) :=
  pushWith e mem v (.value args)

/-- What the overloads of `insert` share: room for `count` elements, what `put` constructs in the
gap, and `added` elements counted; mirrors vector.h:775-850 -/
def insertWith (pos count added : Nat)
    (put : Vec T → Nat → Except Err (Storage T)) : Except Err (Bool × Vec T) := do
  let (place, w) ← makeSpace e mem v pos count
  match place with
  | none => return (false, w)
  | some place => do
    let b ← put w place
    return (true, { w.setMem b with sz := w.sz + added })

/-- mirrors vector.h:775-793 -/
def insert (pos : Nat) (value : Ref T) : Except Err (Bool × Vec T) :=
  insertWith e mem v pos 1 1 fun w place => do
    let x ← value.get v w w.mem
    w.mem.construct place x

/-- mirrors vector.h:795-813 -/
def insertMove (pos : Nat) (value : T) : Except Err (Bool × Vec T) :=
  insertWith e mem v pos 1 1 fun w place => w.mem.construct place value

/-- mirrors vector.h:815-832 -/
def insertCount (pos count : Nat) (value : Ref T) : Except Err (Bool × Vec T) :=
  insertWith e mem v pos count count fun w place =>
    uninitializedFill (value.get v w) count place w.mem

/-- `__sz` is not updated; mirrors vector.h:834-850 -/
def insertRange (pos : Nat) (xs : List T) : Except Err (Bool × Vec T) :=
  insertWith e mem v pos xs.length 0 fun w place => uninitializedCopy xs place w.mem

/-- mirrors vector.h:852-858 -/
def insertList (pos : Nat) (ilist : List T) : Except Err (Bool × Vec T) :=
  insertRange e mem v pos ilist

/-- What the overloads of `erase` share; mirrors vector.h:870-900 -/
def eraseWith (p count : Nat) : Except Err (Vec T) := do
  let b ← closeGap e count (v.sz - count - p) p v.mem
  let b ← b.destruct e.trivial (v.sz - count)
  return { v.setMem b with sz := v.sz - count }

/-- mirrors vector.h:870-884 -/
def erase (pos : Nat) : Except Err (Vec T) := eraseWith e v pos 1

/-- mirrors vector.h:886-900 -/
def eraseRange (first last : Nat) : Except Err (Vec T) :=
  eraseWith e v first (last - first)

/-- mirrors vector.h:981-997 -/
def resizeValue (count : Nat) (value : Ref T) : Except Err (Bool × Vec T) :=
  if count < v.sz then do
    let b ← destructDown e count v.sz v.mem
    return (true, { v.setMem b with sz := count })
  else if v.sz < count then do
    let (grown, w) ← reserve e mem v count
    if grown then
      let b ← uninitializedFill (value.get v w) (count - w.sz) w.sz w.mem
      return (true, { w.setMem b with sz := count })
    else return (false, w)
  else .ok (true, v)

/-- mirrors vector.h:975-979 -/
def resize (count : Nat) : Except Err (Bool × Vec T) :=
  resizeValue e mem v count (.value e.dflt)

/-! ## Whole contents -/

/-- mirrors vector.h:496-505 -/
def assignCount (count : Nat) (value : T) : Except Err (Bool × Vec T) := do
  let v ← clear e v
  let (grown, w) ← reserve e mem v count
  if grown then
    let b ← uninitializedFill (fun _ => .ok value) count 0 w.mem
    return (true, { w.setMem b with sz := count })
  else return (false, w)

/-- mirrors vector.h:507-517 -/
def assignFrom (n : Nat) (get : Storage T → Nat → Except Err T) : Except Err (Bool × Vec T) := do
  let v ← clear e v
  let (grown, w) ← reserve e mem v n
  if grown then
    let b ← constructFrom get n 0 w.mem
    return (true, { w.setMem b with sz := n })
  else return (false, w)

/-- `assign` of a range outside of the vector. -/
def assignRange (xs : List T) : Except Err (Bool × Vec T) :=
  assignFrom e mem v xs.length fun _ k => outside xs k

/-- mirrors vector.h:519-525 -/
def assignList (ilist : List T) : Except Err (Bool × Vec T) := do
  let (grown, w) ← reserve e mem v ilist.length
  if grown then assignRange e mem w ilist else return (false, w)

/-- mirrors vector.h:349-359; nobody looks at the answer of `resize`. -/
def constructCount (count : Nat) (value : T) : Except Err (Vec T) := do
  let (_, v) ← resizeValue e mem .empty count (.value value)
  return v

/-- `none` where the source panics; mirrors vector.h:361-374 -/
def constructDefault (count : Nat) : Except Err (Option (Vec T)) := do
  let (grown, v) ← reserve e mem .empty count
  if grown then
    let b ← uninitializedFill (fun _ => .ok e.dflt) count 0 v.mem
    return some { v.setMem b with sz := count }
  else return none

/-- mirrors vector.h:376-386 -/
def constructRange (xs : List T) : Except Err (Vec T) := do
  let (_, v) ← assignRange e mem .empty xs
  return v

/-- Room for the other vector's elements, and nothing else; mirrors
vector.h:388-409 -/
def constructCopy (other : Vec T) : Except Err (Option (Vec T)) := do
  let (grown, v) ← reserve e mem .empty other.sz
  return if grown then some v else none

/-- `__capacity` is what was in memory before; mirrors vector.h:436-444 -/
def constructList (garbage : Nat) (init : List T) : Except Err (Vec T) := do
  let (_, v) ← assignList e mem ⟨none, garbage, 0⟩ init
  return v

/-- mirrors vector.h:458-464 for two different vectors -/
def copyAssign (other : Vec T) : Except Err (Vec T) := do
  let (_, v) ← assignFrom e mem v other.sz fun _ k => other.mem.read k
  return v

/-- mirrors vector.h:458-464 for a vector assigned to itself: the range is in the
storage that `assign` clears. -/
def selfAssign : Except Err (Vec T) := do
  let (_, v) ← assignFrom e mem v v.sz fun b k => b.read k
  return v

/-- mirrors vector.h:488-494 -/
def listAssign (ilist : List T) : Except Err (Vec T) := do
  let (_, v) ← assignList e mem v ilist
  return v

/-- The elements in order, as an iteration reads them. -/
def elements : Nat → Nat → Storage T → Except Err (List T)
  | 0, _, _ => .ok []
  | n + 1, i, b => do
    let x ← b.read i
    let xs ← elements n (i + 1) b
    return x :: xs

def Vec.elements : Except Err (List T) := Vector.elements v.sz 0 v.mem

/-- mirrors algorithm.h:100-117 -/
def equal : List T → List T → Bool
  | [], [] => true
  | [], _ :: _ => false
  | _ :: _, [] => false
  | x :: xs, y :: ys => if e.ne x y then false else equal xs ys

end Dgos.L1.Vector
