import Dgos.Core.OrdSet
import Dgos.Core.Outcome
import Dgos.Core.Ranges

/-!
# The linear address allocator `contiguous_allocator_t` (kernel/lib/contig_alloc.cc)

The free ranges are kept in two search trees, ordered by address and by size. `alloc_linear`
takes the first range that is large enough from the tree by size, `release_linear` joins the
released range with its neighbours and `take_linear` carves a range out wherever it lies.

A tree is its ordered set of pairs (`OrdSet`); an iterator is the pair it stands at and a
node handle the pair it holds. `release_linear` edits the pair of an extracted node while the
iterator `ins.first` still points at it: `Release.ins` is that pair. Addresses and sizes are
64-bit numbers, so sums and differences are reduced modulo `2 ^ 64`. A failed `assert` is
`Err.assert`, the use of an empty node handle `Err.null`; `Err.fuel` never happens, and
`Err.outOfMemory` is for the callers of the allocator.

Results:
* `swapSet_insert`, `swapSet_erase`: an update of both trees keeps one the image of the other.
-/
namespace Dgos.L2.ContigAlloc

open OrdSet

/-! ## Pairs -/

/-- `tree_item_t`. -/
structure Item where
  first : Nat
  second : Nat
  deriving DecidableEq, Repr

open Item

namespace Item

def toProd (i : Item) : Nat ×ₗ Nat := toLex (i.first, i.second)

instance : LinearOrder Item := LinearOrder.lift' toProd fun ⟨_, _⟩ ⟨_, _⟩ h => by
  simpa [toProd] using h

theorem lt_iff {i j : Item} : i < j ↔ i.first < j.first ∨ i.first = j.first ∧ i.second < j.second :=
  Prod.Lex.toLex_lt_toLex

theorem le_iff {i j : Item} : i ≤ j ↔ i.first < j.first ∨ i.first = j.first ∧ i.second ≤ j.second :=
  Prod.Lex.toLex_le_toLex

def swap (i : Item) : Item := ⟨i.second, i.first⟩

@[simp] theorem swap_swap (i : Item) : i.swap.swap = i := rfl

theorem swap_injective : Function.Injective swap := fun i j h => by
  rw [← swap_swap i, h, swap_swap]

end Item

def w64 : Nat := 2 ^ 64

/-! ## The trees -/

/-- The pairs of `s`, swapped. -/
def swapSet (s : OrdSet Item) : OrdSet Item :=
  s.items.foldr (fun i t => (t.insert i.swap).1) OrdSet.empty

variable {s : OrdSet Item} {i : Item}

@[simp] theorem mem_swapSet : i ∈ swapSet s ↔ i.swap ∈ s := by
  have h : ∀ l : List Item, i ∈ l.foldr (fun i t => (insert t i.swap).1) empty ↔ i.swap ∈ l := by
    intro l
    induction l with
    | nil => simp
    | cons j l ih =>
      rw [List.foldr_cons, mem_insert, ih, List.mem_cons]
      exact or_congr_left ⟨fun e => by rw [e, swap_swap], fun e => by rw [← e, swap_swap]⟩
  exact h s.items

theorem swapSet_insert : swapSet (s.insert i).1 = ((swapSet s).insert i.swap).1 :=
  ext fun j => by
    rw [mem_swapSet, mem_insert, mem_insert, mem_swapSet]
    exact or_congr_left ⟨fun e => by rw [← e, swap_swap], fun e => by rw [e, swap_swap]⟩

theorem swapSet_erase : swapSet (s.erase i) = (swapSet s).erase i.swap :=
  ext fun j => by
    rw [mem_swapSet, mem_erase, mem_erase, mem_swapSet]
    exact and_congr_left fun _ =>
      ⟨fun h e => h (by rw [e, swap_swap]), fun h e => h (by rw [← e, swap_swap])⟩

theorem size_swapSet : (swapSet s).size = s.size :=
  (size_eq_of_injective swap_injective fun j => by
    rw [mem_swapSet]
    exact ⟨fun h => ⟨j.swap, h, rfl⟩, fun ⟨i, hi, e⟩ => by rw [← e]; exact hi⟩).symm

/-! ## The allocator -/

inductive Err where
  | assert | null | outOfMemory | fuel
  deriving DecidableEq, Repr

def assert (p : Prop) [Decidable p] : Except Err Unit := if p then pure () else throw .assert

def pageSize : Nat := 4096

/-- The difference of two addresses. -/
def sub64 (a b : Nat) : Nat := (a + w64 - b) % w64

/-- mirrors contig_alloc.h:55-59; `linearBase` is what `linear_base_ptr` points at -/
structure Alloc where
  freeAddrBySize : OrdSet Item
  freeAddrByAddr : OrdSet Item
  linearBase : Nat
  ready : Bool
  deriving DecidableEq

/-- mirrors contig_alloc.cc:77-93 -/
def init (addr size : Nat) : Alloc where
  freeAddrBySize := if size = 0 then .empty else (OrdSet.empty.insert ⟨size, addr⟩).1
  freeAddrByAddr := if size = 0 then .empty else (OrdSet.empty.insert ⟨addr, size⟩).1
  linearBase := 0
  ready := true

/-- The two node handles go back into their trees. -/
def insertNodes (a : Alloc) (byAddr bySize : Item) : Except Err Alloc := do
  assert (byAddr ∉ a.freeAddrByAddr)
  assert (bySize ∉ a.freeAddrBySize)
  pure { a with
    freeAddrByAddr := (a.freeAddrByAddr.insert byAddr).1
    freeAddrBySize := (a.freeAddrBySize.insert bySize).1 }

/-- The part of `alloc_linear` behind the search.
mirrors contig_alloc.cc:120-157 -/
def allocAt (a : Alloc) (size : Nat) (bySize : Item) : Except Err (Nat × Alloc) := do
  assert (size ≤ bySize.first)
  match a.freeAddrByAddr.extract ⟨bySize.second, bySize.first⟩ with
  | (none, _) => throw .assert
  | (some nodeByAddr, freeAddrByAddr) =>
    assert (bySize.first = nodeByAddr.second)
    assert (nodeByAddr.first = bySize.second)
    let a := { a with freeAddrBySize := a.freeAddrBySize.erase bySize, freeAddrByAddr }
    if size < bySize.first then
      let rest : Item := ⟨(bySize.second + size) % w64, bySize.first - size⟩
      return (bySize.second, ← insertNodes a rest rest.swap)
    else return (bySize.second, a)

/-- mirrors contig_alloc.cc:95-188 -/
def allocLinear (a : Alloc) (size : Nat) : Except Err (Nat × Alloc) := do
  assert (size % pageSize = 0)
  if a.ready then
    match a.freeAddrBySize.lowerBound ⟨size, 0⟩ with
    | none => return (0, a)
    | some place => allocAt a size place
  else
    assert (a.linearBase % pageSize = 0)
    return (a.linearBase, { a with linearBase := (a.linearBase + size) % w64 })

/-! ## `release_linear` -/

/-- The variables of `release_linear`. -/
structure Release where
  byAddr : OrdSet Item
  bySize : OrdSet Item
  addr : Nat
  size : Nat
  fin : Nat
  /-- the pair in the node that `ins.first` points at -/
  ins : Item
  /-- `ins_node` holds that node -/
  insNode : Bool
  insSizeNode : Option Item

namespace Release

/-- The variables when the new range has been filed in both trees.
mirrors contig_alloc.cc:430-447 -/
def start (a : Alloc) (range : Item) : Release where
  byAddr := (a.freeAddrByAddr.insert range).1
  bySize := (a.freeAddrBySize.insert range.swap).1
  addr := range.first
  size := range.second
  fin := (range.first + range.second) % w64
  ins := range
  insNode := false
  insSizeNode := none

/-- mirrors contig_alloc.cc:490-496, 523-527, 542-546 -/
def extractIns (r : Release) : Release :=
  let extracted := r.bySize.extract r.ins.swap
  { r with
    byAddr := r.byAddr.erase r.ins
    bySize := extracted.2
    insNode := true
    insSizeNode := extracted.1 }

/-- Both handles are set to the range that `addr` and `size` describe.
mirrors contig_alloc.cc:503-504, 533-534, 550-551 -/
def setNodes (r : Release) : Except Err Release :=
  match r.insSizeNode with
  | none => throw .null
  | some _ => pure { r with ins := ⟨r.addr, r.size⟩, insSizeNode := some ⟨r.size, r.addr⟩ }

/-- mirrors contig_alloc.cc:522-529, 541-548 -/
def extractOnce (r : Release) : Except Err Release :=
  if r.insNode then pure r
  else do
    let r := r.extractIns
    assert (r.insSizeNode.isSome)
    pure r

/-- The range `i` leaves both trees.
mirrors contig_alloc.cc:484-487, 518-520 -/
def eraseRange (r : Release) (i : Item) : Except Err Release := do
  assert (i.swap ∈ r.bySize)
  pure { r with byAddr := r.byAddr.erase i, bySize := r.bySize.erase i.swap }

/-- The values that lines 468-480 give to `addr` and `size` are overwritten at 500-501.
mirrors contig_alloc.cc:455-506 -/
def mergePred (r : Release) : Except Err Release :=
  match r.byAddr.prev r.ins with
  | none => pure r
  | some pred =>
    let predEnd := (pred.first + pred.second) % w64
    if pred.first ≤ r.addr ∧ r.addr ≤ predEnd then do
      let fin := if r.fin < predEnd then predEnd else r.fin
      let r := (← r.eraseRange pred).extractIns
      setNodes { r with addr := pred.first, size := sub64 fin pred.first, fin }
    else pure r

/-- mirrors contig_alloc.cc:508-535 -/
def mergeSucc : Nat → Release → Option Item → Except Err (Release × Option Item)
  | _, r, none => pure (r, none)
  | 0, _, some _ => throw .fuel
  | fuel + 1, r, some succ =>
    if r.fin < succ.first then pure (r, some succ)
    else do
      let succIt := r.byAddr.next succ
      let r ← extractOnce (← r.eraseRange succ)
      let r ← setNodes { r with size := sub64 ((succ.first + succ.second) % w64) r.addr }
      mergeSucc fuel r succIt

/-- mirrors contig_alloc.cc:537-552 -/
def extendEnd (r : Release) (succIt : Option Item) : Except Err Release :=
  if succIt = none ∧ (r.addr + r.size) % w64 < r.fin then do
    let r ← extractOnce { r with size := sub64 r.fin r.addr }
    setNodes r
  else pure r

/-- mirrors contig_alloc.cc:557-567 -/
def reinsert (a : Alloc) (r : Release) : Except Err Alloc :=
  let a := { a with freeAddrByAddr := r.byAddr, freeAddrBySize := r.bySize }
  if r.insNode then
    match r.insSizeNode with
    | none => throw .assert
    | some insSizeNode => insertNodes a r.ins insSizeNode
  else pure a

end Release

/-- mirrors contig_alloc.cc:440-575 -/
def releaseNew (a : Alloc) (range : Item) : Except Err Alloc := do
  assert (range.swap ∉ a.freeAddrBySize)
  let r := Release.start a range
  let succIt := r.byAddr.next range
  let r ← r.mergePred
  let (r, succIt) ← r.mergeSucc (a.freeAddrByAddr.size + 1) succIt
  let r ← r.extendEnd succIt
  assert (r.addr = r.ins.first)
  assert (r.size = r.ins.second)
  let a ← r.reinsert a
  assert (a.freeAddrByAddr.size = a.freeAddrBySize.size)
  pure a

/-- A range that is free already, exactly as it is, is left alone.
mirrors contig_alloc.cc:419-438 -/
def releaseLinear (a : Alloc) (addr size : Nat) : Except Err Alloc := do
  assert (a.freeAddrByAddr.size = a.freeAddrBySize.size)
  if (⟨addr, size⟩ : Item) ∈ a.freeAddrByAddr then pure a
  else releaseNew a ⟨addr, size⟩

/-! ## `take_linear` -/

/-- What is left of an extracted range before and behind the taken space goes back. Answers
what the node of the range holds then, if it is in the tree again.
mirrors contig_alloc.cc:318-349, 377-407 -/
def putParts (a : Alloc) (before after : Item) : Except Err (Option Item × Alloc) := do
  if before.second ≠ 0 then
    let a ← insertNodes a before before.swap
    if after.second ≠ 0 then return (some before, ← insertNodes a after after.swap)
    else return (some before, a)
  else if after.second ≠ 0 then return (some after, ← insertNodes a after after.swap)
  else return (none, a)

/-- The range `i` leaves both trees, except for what lies outside of `[addr, fin)`.
mirrors contig_alloc.cc:303-349, 359-407 -/
def carve (a : Alloc) (addr fin : Nat) (i : Item) : Except Err (Option Item × Alloc) := do
  let iEnd := (i.first + i.second) % w64
  let before : Item := ⟨i.first, if i.first < addr then addr - i.first else 0⟩
  let after : Item := ⟨fin, if fin < iEnd then iEnd - fin else 0⟩
  assert (i.swap ∈ a.freeAddrBySize)
  putParts { a with
    freeAddrByAddr := a.freeAddrByAddr.erase i
    freeAddrBySize := a.freeAddrBySize.erase i.swap } before after

/-- mirrors contig_alloc.cc:299-351 -/
def takePred (a : Alloc) (addr fin : Nat) (pred : Item) : Except Err Alloc := do
  if pred.second ≠ 0 ∧ addr < (pred.first + pred.second) % w64 then
    let (_, a) ← carve a addr fin pred
    return a
  else return a

/-- The iterator `lo_it` stays at its node, which holds `item` and is in the tree if `linked`:
to extract a node that is not fails an assertion of the tree.
mirrors contig_alloc.cc:353-408 -/
def takeLoop (addr fin : Nat) (hiIt : Option Item) :
    Nat → Alloc → (item : Item) → (linked : Bool) → Except Err Alloc
  | 0, _, _, _ => throw .fuel
  | fuel + 1, a, item, linked =>
    if hiIt = some item then pure a
    else if fin ≤ item.first then pure a
    else do
      assert (linked = true)
      let (node, a) ← carve a addr fin item
      takeLoop addr fin hiIt fuel a (node.getD item) node.isSome

/-- The test that lets `take_linear` refuse.
mirrors contig_alloc.cc:284-286, 288-290 -/
def refuses (addr size fin : Nat) (i : Item) : Bool :=
  i.first ≤ addr && addr < (i.first + i.second) % w64 && sub64 fin i.first < size

/-- mirrors contig_alloc.cc:299-416 -/
def takeRange (a : Alloc) (addr fin : Nat) (loIt hiIt : Option Item) (pred : Item) :
    Except Err (Bool × Alloc) := do
  let a ← takePred a addr fin pred
  let a ← match loIt with
    | none => pure a
    | some item => takeLoop addr fin hiIt (a.freeAddrByAddr.size + 2) a item true
  assert (a.freeAddrByAddr.size = a.freeAddrBySize.size)
  return (true, a)

/-- The pair in front of `lo_it`.
mirrors contig_alloc.cc:270-274 -/
def predAt (s : OrdSet Item) (loIt : Option Item) : Item :=
  match loIt with
  | none => s.last.getD ⟨0, 0⟩
  | some item => (s.prev item).getD ⟨0, 0⟩

/-- mirrors contig_alloc.cc:241-417 -/
def takeLinear (a : Alloc) (addr size : Nat) (requireFree : Bool) : Except Err (Bool × Alloc) := do
  assert (0 < size)
  assert (a.freeAddrByAddr.size = a.freeAddrBySize.size)
  assert (a.freeAddrByAddr.size ≠ 0)
  assert (a.freeAddrBySize.size ≠ 0)
  let fin := (addr + size) % w64
  let loIt := a.freeAddrByAddr.lowerBound ⟨addr, 0⟩
  let hiIt := if loIt = none then loIt else a.freeAddrByAddr.lowerBound ⟨fin, 0⟩
  let item := loIt.getD ⟨0, 0⟩
  let pred := predAt a.freeAddrByAddr loIt
  if requireFree ∧ (refuses addr size fin item ∨ refuses addr size fin pred) then return (false, a)
  else takeRange a addr fin loIt hiIt pred

/-! ## `validate_locked` -/

/-- Neighbours do not overlap.
mirrors contig_alloc.cc:668-680 -/
def noOverlap : List Item → Bool
  | i :: j :: l => (i.first + i.second) % w64 ≤ j.first && noOverlap (j :: l)
  | _ => true

/-- mirrors contig_alloc.cc:642-683, without the checks of each tree's links -/
def validateLocked (a : Alloc) : Bool :=
  a.freeAddrByAddr.items.all (fun i => decide (i.swap ∈ a.freeAddrBySize)) &&
  a.freeAddrBySize.items.all (fun i => decide (i.swap ∈ a.freeAddrByAddr)) &&
  noOverlap a.freeAddrByAddr.items

end Dgos.L2.ContigAlloc
