import Dgos.Core.Outcome
import Dgos.Core.Shape

/-!
# The balanced search tree `__basic_tree` (kernel/lib/basic_set.h)

The tree behind `ext::set`, `ext::map` and `fast_set`: nodes with links to the children and to
the parent, a balance, and an item that holds the key. Insertion and removal walk up from the
changed place and rotate.

Nodes are addresses and each field is a map, so an assignment through a pointer is an update
of one map at one address; 0 is `nullptr`. `live` are the nodes that the allocator has handed
out. A `__node_t **` is a `Slot`. The comparator is the order of the key type, `key` is
`__tree_value_t::key`. Loops count their steps: `Err.fuel` is proved never to happen, as is a
failed `assert`. `Err.env` stops a run whose caller or allocator breaks its contract (an
iterator that is not in the tree, a handle that is not held, a node handed out twice).
-/
namespace Dgos.L1.BasicTree

open Function

/-! ## Nodes -/

/-- The fields of all nodes (basic_set.h:1525-1544) and of the tree (1700-1705). -/
structure St (α : Type) extends Links where
  balance : Nat → Int
  item : Nat → α
  root : Nat
  first : Nat
  last : Nat
  currentSize : Nat
  live : List Nat

inductive Err where
  | assert | fuel | env
  deriving DecidableEq, Repr

def assert (p : Prop) [Decidable p] : Except Err Unit := if p then pure () else throw .assert

/-! ## Rotations -/

/-- `if (p != nullptr) p->__parent = v`. -/
def setParent (m : Links) (p v : Nat) : Links :=
  if p = 0 then m else { m with parent := update m.parent p v }

/-- mirrors basic_set.h:695-702 -/
def linkRight (m : Links) (X Z : Nat) : Links :=
  let t23 := m.right Z
  let m := { m with left := update m.left X t23 }
  let m := setParent m t23 X
  { m with right := update m.right Z X, parent := update m.parent X Z }

/-- mirrors basic_set.h:725-732 -/
def linkLeft (m : Links) (X Z : Nat) : Links :=
  let t23 := m.left Z
  let m := { m with right := update m.right X t23 }
  let m := setParent m t23 X
  { m with left := update m.left Z X, parent := update m.parent X Z }

/-- mirrors basic_set.h:606-623 -/
def linkRightLeft (m : Links) (X Z : Nat) : Links :=
  let Y := m.left Z
  let t3 := m.right Y
  let m := { m with left := update m.left Z t3 }
  let m := setParent m t3 Z
  let m := { m with right := update m.right Y Z, parent := update m.parent Z Y }
  let t2 := m.left Y
  let m := { m with right := update m.right X t2 }
  let m := setParent m t2 X
  { m with left := update m.left Y X, parent := update m.parent X Y }

/-- mirrors basic_set.h:650-667 -/
def linkLeftRight (m : Links) (X Z : Nat) : Links :=
  let Y := m.right Z
  let t3 := m.left Y
  let m := { m with right := update m.right Z t3 }
  let m := setParent m t3 Z
  let m := { m with left := update m.left Y Z, parent := update m.parent Z Y }
  let t2 := m.right Y
  let m := { m with left := update m.left X t2 }
  let m := setParent m t2 X
  { m with right := update m.right Y X, parent := update m.parent X Y }

variable {α : Type}

/-- `X` and `Z` get the given balances. -/
def setBalances (b : Nat → Int) (X Z : Nat) (bX bZ : Int) : Nat → Int :=
  update (update b X bX) Z bZ

/-- mirrors basic_set.h:690-718 -/
def rotateRight (s : St α) (X Z : Nat) : St α :=
  { s with
    toLinks := linkRight s.toLinks X Z
    balance := if s.balance Z = 0 then setBalances s.balance X Z (-1) 1
      else setBalances s.balance X Z 0 0 }

/-- mirrors basic_set.h:720-748 -/
def rotateLeft (s : St α) (X Z : Nat) : St α :=
  { s with
    toLinks := linkLeft s.toLinks X Z
    balance := if s.balance Z = 0 then setBalances s.balance X Z 1 (-1)
      else setBalances s.balance X Z 0 0 }

/-- mirrors basic_set.h:601-643 -/
def rotateRightLeft (s : St α) (X Z : Nat) : St α :=
  let Y := s.left Z
  let balance :=
    if 0 < s.balance Y then setBalances s.balance X Z (-1) 0
    else if s.balance Y = 0 then setBalances s.balance X Z 0 0
    else setBalances s.balance X Z 0 1
  { s with toLinks := linkRightLeft s.toLinks X Z, balance := update balance Y 0 }

/-- mirrors basic_set.h:645-688 -/
def rotateLeftRight (s : St α) (X Z : Nat) : St α :=
  let Y := s.right Z
  let balance :=
    if 0 < s.balance Y then setBalances s.balance X Z 0 (-1)
    else if s.balance Y = 0 then setBalances s.balance X Z 0 0
    else setBalances s.balance X Z 1 0
  { s with toLinks := linkLeftRight s.toLinks X Z, balance := update balance Y 0 }

/-- `N` takes the place of `X` below `G`.
mirrors basic_set.h:491-502, 582-594 -/
def adopt (s : St α) (G X N : Nat) : St α :=
  let s := { s with parent := update s.parent N G }
  if G ≠ 0 then { s with toLinks := s.toLinks.setChild G X N } else { s with root := N }

/-- The rotation for a right-heavy `X` with the right child `Z`, and the new root.
mirrors basic_set.h:439-447, 527-535 -/
def rebalanceRight (s : St α) (X Z : Nat) : St α × Nat :=
  if s.balance Z < 0 then (rotateRightLeft s X Z, s.left Z) else (rotateLeft s X Z, Z)

/-- mirrors basic_set.h:466-473, 557-565 -/
def rebalanceLeft (s : St α) (X Z : Nat) : St α × Nat :=
  if 0 < s.balance Z then (rotateLeftRight s X Z, s.right Z) else (rotateRight s X Z, Z)

def setBalance (s : St α) (p : Nat) (b : Int) : St α :=
  { s with balance := update s.balance p b }

/-- mirrors basic_set.h:424-508 -/
def retraceInsert : Nat → St α → Nat → Except Err (St α)
  | fuel, s, Z =>
    let X := s.parent Z
    if X = 0 then pure s
    else match fuel with
      | 0 => throw .fuel
      | fuel + 1 =>
        if Z = s.right X then
          if 0 < s.balance X then
            let G := s.parent X
            let (s, N) := rebalanceRight s X Z
            pure (adopt s G X N)
          else if s.balance X < 0 then pure (setBalance s X 0)
          else retraceInsert fuel (setBalance s X 1) X
        else
          if s.balance X < 0 then
            let G := s.parent X
            let (s, N) := rebalanceLeft s X Z
            pure (adopt s G X N)
          else if 0 < s.balance X then pure (setBalance s X 0)
          else retraceInsert fuel (setBalance s X (-1)) X

/-- The loop of `__retrace_delete`.
mirrors basic_set.h:515-596 -/
def retraceDeleteLoop : Nat → St α → (X N : Nat) → Except Err (St α)
  | fuel, s, X, N =>
    if X = 0 then pure s
    else match fuel with
      | 0 => throw .fuel
      | fuel + 1 =>
        let G := s.parent X
        if N = s.left X then
          if 0 < s.balance X then
            let Z := s.right X
            let b := s.balance Z
            let (s, N) := rebalanceRight s X Z
            let s := adopt s G X N
            if G ≠ 0 ∧ b = 0 then pure s else retraceDeleteLoop fuel s G N
          else if s.balance X = 0 then pure (setBalance s X 1)
          else retraceDeleteLoop fuel (setBalance s X 0) G X
        else
          if s.balance X < 0 then
            let Z := s.left X
            let b := s.balance Z
            let (s, N) := rebalanceLeft s X Z
            let s := adopt s G X N
            if G ≠ 0 ∧ b = 0 then pure s else retraceDeleteLoop fuel s G N
          else if s.balance X = 0 then pure (setBalance s X (-1))
          else retraceDeleteLoop fuel (setBalance s X 0) G X

/-- More than the steps of any walk up or down the tree. -/
def St.steps (s : St α) : Nat := s.currentSize + 1

/-- mirrors basic_set.h:510-599 -/
def retraceDelete (s : St α) (N : Nat) : Except Err (St α) :=
  retraceDeleteLoop s.steps s (s.parent N) N

/-! ## Walks -/

/-- mirrors basic_set.h:1645-1646, 2514-2515 -/
def leftmost : Nat → Links → Nat → Except Err Nat
  | 0, _, _ => throw .fuel
  | fuel + 1, m, p => if m.left p = 0 then pure p else leftmost fuel m (m.left p)

/-- mirrors basic_set.h:1675-1676 -/
def rightmost : Nat → Links → Nat → Except Err Nat
  | 0, _, _ => throw .fuel
  | fuel + 1, m, p => if m.right p = 0 then pure p else rightmost fuel m (m.right p)

/-- mirrors basic_set.h:1649-1655 -/
def upFromRight : Nat → Links → (curr p : Nat) → Except Err Nat
  | fuel, m, curr, p =>
    if p ≠ 0 ∧ curr = m.right p then
      match fuel with
      | 0 => throw .fuel
      | fuel + 1 => upFromRight fuel m p (m.parent p)
    else pure p

/-- mirrors basic_set.h:1679-1685 -/
def upFromLeft : Nat → Links → (curr p : Nat) → Except Err Nat
  | fuel, m, curr, p =>
    if p ≠ 0 ∧ curr = m.left p then
      match fuel with
      | 0 => throw .fuel
      | fuel + 1 => upFromLeft fuel m p (m.parent p)
    else pure p

/-- mirrors basic_set.h:1638-1660 -/
def treeNext (s : St α) (curr : Nat) : Except Err Nat :=
  if curr = 0 then pure 0
  else if s.right curr ≠ 0 then leftmost s.steps s.toLinks (s.right curr)
  else upFromRight s.steps s.toLinks curr (s.parent curr)

/-- mirrors basic_set.h:1668-1692 -/
def treePrev (s : St α) (curr : Nat) : Except Err Nat :=
  if curr = 0 then pure s.last
  else if s.left curr ≠ 0 then rightmost s.steps s.toLinks (s.left curr)
  else upFromLeft s.steps s.toLinks curr (s.parent curr)

/-! ## Search and insertion -/

section keys

variable {κ : Type} [LinearOrder κ] (key : α → κ)

/-- `!cmp(k, r) - !cmp(r, k)`. -/
def diff (k r : κ) : Int := (if k < r then 0 else 1) - (if r < k then 0 else 1)

/-- mirrors basic_set.h:2616-2636 -/
def findLoop (s : St α) (k : κ) : Nat → Nat → Except Err Nat
  | fuel, node =>
    if node = 0 then pure 0
    else match fuel with
      | 0 => throw .fuel
      | fuel + 1 =>
        let d := diff k (key (s.item node))
        if d = 0 then pure node
        else findLoop s k fuel (if d < 0 then s.left node else s.right node)

def treeFind (s : St α) (k : κ) : Except Err Nat := findLoop key s k s.steps s.root

/-- The walk to the node with the key, or to the parent of a new one; with the last comparison.
mirrors basic_set.h:2650-2661 -/
def insLoop (s : St α) (k : κ) : Nat → Nat → Except Err (Nat × Int)
  | 0, _ => throw .fuel
  | fuel + 1, p =>
    let d := diff k (key (s.item p))
    let next := if d < 0 then s.left p else s.right p
    if d ≠ 0 ∧ next ≠ 0 then insLoop s k fuel next else pure (p, d)

/-- The new node `n` below `p`, on the side of the comparison.
mirrors basic_set.h:2680-2698 -/
def linkNode (s : St α) (n p : Nat) (d : Int) : St α :=
  { s with
    left := if p ≠ 0 ∧ d < 0 then update (update s.left n 0) p n
      else update s.left n 0
    right := if p ≠ 0 ∧ ¬ d < 0 then update (update s.right n 0) p n
      else update s.right n 0
    balance := update s.balance n 0
    parent := update s.parent n p
    currentSize := s.currentSize + 1
    first := if s.root = 0 ∨ (p = s.first ∧ d < 0) then n else s.first
    last := if s.root = 0 ∨ (p = s.last ∧ 0 < d) then n else s.last
    root := if p = 0 then n else s.root }

/-- `__tree_ins`: the parent and the comparison, or the node with an equal key.
mirrors basic_set.h:2638-2667 -/
def insPlace (s : St α) (k : κ) : Except Err (Nat × Int) :=
  if s.root = 0 then pure (0, -1) else insLoop key s k s.steps s.root

/-- What the allocator answers; without memory the kernel panics.
mirrors basic_set.h:2669-2678 -/
def allocate (s : St α) (new : Nat) : Except Err (St α) :=
  if new = 0 ∨ new ∈ s.live then throw .env else pure { s with live := new :: s.live }

def setItem (s : St α) (p : Nat) (v : α) : St α := { s with item := update s.item p v }

/-- `insert(value)`: the node and whether it is new; `new` is the node that the allocator hands
out.
mirrors basic_set.h:1999-2023, 2077-2100 -/
def insert (s : St α) (v : α) (new : Nat) : Except Err (St α × Nat × Bool) := do
  let (p, d) ← insPlace key s (key v)
  if d = 0 then pure (s, p, false)
  else do
    let s ← allocate s new
    let s := setItem (linkNode s new p d) new v
    let s ← retraceInsert s.steps s new
    pure (s, new, true)

/-- mirrors basic_set.h:2130-2163 -/
def emplace (s : St α) (v : α) (new : Nat) : Except Err (St α × Nat × Bool) := do
  let s ← allocate s new
  let s := setItem s new v
  let (p, d) ← insPlace key s (key v)
  if d = 0 then pure ({ s with live := s.live.erase new }, p, false)
  else do
    let s := linkNode s new p d
    let s ← retraceInsert s.steps s new
    pure (s, new, true)

/-- The node of a handle. -/
def insertHeld (s : St α) (node : Nat) : Except Err (St α × Nat × Bool) := do
  let (p, d) ← insPlace key s (key (s.item node))
  if d = 0 then pure (s, p, false)
  else do
    let s := linkNode s node p d
    let s ← retraceInsert s.steps s node
    pure (s, node, true)

/-- `insert(node_type&&)`: the handle lets go of its node, also when the key is there already
and the node does not get into the tree. An empty handle (0) does nothing.
mirrors basic_set.h:2102-2128 -/
def insertNode (s : St α) (node : Nat) : Except Err (St α × Nat × Bool) :=
  if node ≠ 0 then insertHeld key s node else pure (s, 0, false)

/-- mirrors basic_set.h:2168-2201, with `go_next` -/
def lowerBoundLoop (s : St α) (k : κ) : Nat → Nat → Except Err (Nat × Int)
  | 0, _ => throw .fuel
  | fuel + 1, node =>
    let d := diff k (key (s.item node))
    let next := if d < 0 then s.left node else s.right node
    if d = 0 ∨ next = 0 then pure (node, d) else lowerBoundLoop s k fuel next

def lowerBound (s : St α) (k : κ) : Except Err Nat := do
  if s.root = 0 then pure 0
  else do
    let (node, d) ← lowerBoundLoop key s k s.steps s.root
    if 0 < d then treeNext s node else pure node

end keys

/-! ## Removal -/

/-- Where a pointer to a node is stored. -/
inductive Slot where
  | root
  | left (p : Nat)
  | right (p : Nat)

/-- The pointer that points at `p`.
mirrors basic_set.h:2391-2399 -/
def slotOf (s : St α) (p : Nat) : Slot :=
  if s.parent p = 0 then .root
  else if s.left (s.parent p) = p then .left (s.parent p) else .right (s.parent p)

def setSlot (s : St α) (slot : Slot) (v : Nat) : St α :=
  match slot with
  | .root => { s with root := v }
  | .left p => { s with left := update s.left p v }
  | .right p => { s with right := update s.right p v }

def getSlot (s : St α) : Slot → Nat
  | .root => s.root
  | .left p => s.left p
  | .right p => s.right p

def swapAt {β : Type} (f : Nat → β) (a b : Nat) : Nat → β :=
  update (update f a (f b)) b (f a)

/-- `b` is a child of `a`.
mirrors basic_set.h:2410-2441 -/
def swapAdjacent (s : St α) (a b : Nat) : St α :=
  let slot := slotOf s a
  let bWasLeft := decide (s.left a = b)
  let W := s.parent a
  let X := if bWasLeft then s.right a else s.left a
  let Y := s.left b
  let Z := s.right b
  let s := { s with
    parent := update (update s.parent b W) a b
    left := update (update s.left a Y) b (if bWasLeft then a else X)
    right := update (update s.right a Z) b (if bWasLeft then X else a) }
  let s := { s with toLinks := setParent s.toLinks X b }
  let s := setSlot s slot b
  let s := { s with toLinks := setParent s.toLinks Y a }
  { s with toLinks := setParent s.toLinks Z a }

/-- Two nodes trade their links.
mirrors basic_set.h:2448-2450 -/
def tradeLinks (s : St α) (a b : Nat) : St α :=
  { s with left := swapAt s.left a b, right := swapAt s.right a b, parent := swapAt s.parent a b }

/-- mirrors basic_set.h:2444-2461 -/
def swapApart (s : St α) (a b : Nat) : St α :=
  let slotA := slotOf s a
  let slotB := slotOf s b
  let s := tradeLinks s a b
  let s := setSlot (setSlot s slotA (getSlot s slotB)) slotB (getSlot s slotA)
  let s := { s with toLinks := setParent s.toLinks (s.left a) a }
  let s := { s with toLinks := setParent s.toLinks (s.right a) a }
  let s := { s with toLinks := setParent s.toLinks (s.left b) b }
  { s with toLinks := setParent s.toLinks (s.right b) b }

/-- mirrors basic_set.h:2381-2464 -/
def swapNodes (s : St α) (a b : Nat) : Except Err (St α) := do
  assert (b ≠ s.parent a)
  let s := if a = s.parent b then swapAdjacent s a b else swapApart s a b
  pure { s with balance := swapAt s.balance a b }

/-- A node with one child, which `child` reads.
mirrors basic_set.h:2529-2538, 2541-2550 -/
def removeWithChild (s : St α) (node parent : Nat) (child : St α → Nat) : Except Err (St α) := do
  let s ← retraceDelete s (child s)
  assert (parent = s.parent node)
  let c := child s
  if parent ≠ 0 then
    let s := { s with toLinks := s.toLinks.setChild parent node c }
    pure { s with parent := update s.parent c parent }
  else
    pure { s with root := c, parent := update s.parent c 0 }

/-- mirrors basic_set.h:2553-2562 -/
def removeLeaf (s : St α) (node parent : Nat) : Except Err (St α) := do
  let s ← retraceDelete s node
  if parent ≠ 0 then do
    assert (parent = s.parent node)
    pure { s with toLinks := s.toLinks.setChild parent node 0 }
  else do
    assert (s.currentSize = 1)
    pure { s with root := 0, first := 0, last := 0 }

/-- A node that does not have two children.
mirrors basic_set.h:2524-2565 -/
def removeSimple (s : St α) (node : Nat) : Except Err (St α) := do
  let parent := s.parent node
  let s ←
    if s.left node ≠ 0 ∧ s.right node = 0 then removeWithChild s node parent fun s => s.left node
    else if s.right node ≠ 0 ∧ s.left node = 0 then
      removeWithChild s node parent fun s => s.right node
    else removeLeaf s node parent
  pure { s with currentSize := s.currentSize - 1 }

/-- mirrors basic_set.h:2466-2566 -/
def removeNode (s : St α) (node : Nat) : Except Err (St α) :=
  if s.left node ≠ 0 ∧ s.right node ≠ 0 then do
    let S ← leftmost s.steps s.toLinks (s.right node)
    let s ← swapNodes s node S
    removeSimple s node
  else removeSimple s node

/-- The new first and last node when `node` goes.
mirrors basic_set.h:2582-2595 -/
def newEnds (s : St α) (node next : Nat) : Except Err (Nat × Nat) :=
  if s.first = s.last then do
    assert (node = s.first)
    pure (0, 0)
  else if s.first = node then pure (next, s.last)
  else if s.last = node then do
    let p ← treePrev s s.last
    pure (s.first, p)
  else pure (s.first, s.last)

/-- `__extract_node`, up to what becomes of the node; with the iterator behind it.
mirrors basic_set.h:2568-2600 -/
def detach (s : St α) (node : Nat) : Except Err (St α × Nat) := do
  assert (s.first ≠ 0 ∧ s.last ≠ 0)
  let next ← treeNext s node
  let (first, last) ← newEnds s node next
  let s ← removeNode { s with first, last } node
  pure (s, next)

/-- mirrors basic_set.h:1496-1499, 2602-2603 -/
def eraseAt (s : St α) (node : Nat) : Except Err (St α × Nat) := do
  let (s, next) ← detach s node
  pure ({ s with live := s.live.erase node }, next)

/-- mirrors basic_set.h:1501-1506, 2605-2608 -/
def extractAt (s : St α) (node : Nat) : Except Err (St α) := do
  let (s, _) ← detach s node
  pure { s with
    parent := update s.parent node 0
    left := update s.left node 0
    right := update s.right node 0
    balance := update s.balance node 0 }

section keys

variable {κ : Type} [LinearOrder κ] (key : α → κ)

/-- `erase(key)`; answers how many were removed.
mirrors basic_set.h:1484-1494 -/
def erase (s : St α) (k : κ) : Except Err (St α × Nat) := do
  let it ← treeFind key s k
  if it ≠ 0 then do
    let (s, _) ← eraseAt s it
    pure (s, 1)
  else pure (s, 0)

/-- `extract(key)`; answers the node, or 0.
mirrors basic_set.h:1508-1516 -/
def extract (s : St α) (k : κ) : Except Err (St α × Nat) := do
  let it ← treeFind key s k
  if it ≠ 0 then do
    let s ← extractAt s it
    pure (s, it)
  else pure (s, 0)

end keys

/-- mirrors basic_set.h:1979-1991 -/
def clearLoop : Nat → St α → Nat → Except Err (St α)
  | fuel, s, node =>
    if node = 0 then pure s
    else match fuel with
      | 0 => throw .fuel
      | fuel + 1 =>
        if s.left node ≠ 0 then clearLoop fuel s (s.left node)
        else if s.right node ≠ 0 then clearLoop fuel s (s.right node)
        else
          let next := s.parent node
          let s := if next ≠ 0 then { s with toLinks := s.toLinks.setChild next node 0 } else s
          clearLoop fuel { s with live := s.live.erase node } next

/-- mirrors basic_set.h:1976-1996 -/
def clear (s : St α) : Except Err (St α) := do
  let s ← clearLoop (2 * s.currentSize) s s.root
  pure { s with root := 0, first := 0, last := 0, currentSize := 0 }

end Dgos.L1.BasicTree
