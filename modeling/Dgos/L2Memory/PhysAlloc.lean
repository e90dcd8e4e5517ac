import Dgos.Core.Outcome

/-!
# The kernel's physical page allocator (kernel/arch/x86_64/cpu/phys_alloc.cc)

`mmu_phys_allocator_t` keeps one 32-bit word for every page: the index of the next free page, the
end mark, or, with the top bit set, the number of references to a page in use. A failed assertion
stops the kernel and is an error here.

`alloc_multiple` takes a run of pages off the free chain under its lock and then hands them to a
callback one by one without it. The callback may use the allocator itself (`mmap` frees the pages
it replaces), so it is a function of the whole system.

`free_batch_t` collects up to sixteen pages and releases them together; the batches of the system
have names.
-/
namespace Dgos.L2.PhysAlloc

inductive Err where
  | assertFailed
  | fuel
  deriving DecidableEq, Repr

/-- What `init` is told; mirrors phys_alloc.cc:14-25 -/
structure Cfg where
  begin : Nat
  log2Pagesz : Nat
  highestUsable : Nat

structure St where
  entries : Nat → Nat
  nextFree : Nat
  freePageCount : Nat

/-- `entry_t(-1)` -/
def endMark : Nat := 2 ^ 32 - 1

def usedMask : Nat := 2 ^ 31

/-- `word & used_mask` -/
def isUsed (word : Nat) : Bool := word.testBit 31

/-- mirrors phys_alloc.cc:14-25 -/
def St.init : St := ⟨fun _ => endMark, endMark, 0⟩

def St.setEntry (st : St) (index word : Nat) : St :=
  { st with entries := Function.update st.entries index word }

namespace Cfg

variable (c : Cfg)

def pagesz : Nat := 2 ^ c.log2Pagesz

def index (addr : Nat) : Nat := (addr - c.begin) >>> c.log2Pagesz

/-- mirrors phys_alloc.h:122-126 -/
def indexFromAddr (addr : Nat) : Except Err Nat :=
  if c.begin ≤ addr then .ok (c.index addr) else .error .assertFailed

/-- mirrors phys_alloc.h:128-131 -/
def addrFromIndex (index : Nat) : Nat := (index * 2 ^ c.log2Pagesz + c.begin) % 2 ^ 64

/-! ## Single pages -/

/-- The loop of `add_free_space`; every turn that goes on has used up one index, so as many turns
as there are pages are enough. -/
def addLoop : Nat → Nat → Nat → St → Except Err St
  | 0, _, _, _ => .error .fuel
  | fuel + 1, size, index, st =>
    if size = 0 then .ok st
    else if index < c.highestUsable then
      if st.entries index = endMark then
        addLoop fuel ((size + 2 ^ 64 - c.pagesz) % 2 ^ 64) ((index + 2 ^ 32 - 1) % 2 ^ 32)
          ⟨Function.update st.entries index st.nextFree, index, (st.freePageCount + 1) % 2 ^ 32⟩
      else .error .assertFailed
    else .error .assertFailed

/-- mirrors phys_alloc.cc:27-53 -/
def addFreeSpace (st : St) (base size : Nat) : Except Err St := do
  let index ← c.indexFromAddr ((base + size) % 2 ^ 64)
  c.addLoop (c.highestUsable + 1) size ((index + 2 ^ 32 - 1) % 2 ^ 32) st

/-- `free_page_count` is not touched; mirrors phys_alloc.cc:55-87 -/
def allocOne (st : St) : Except Err (Nat × St) :=
  if st.nextFree = endMark then .ok (0, st)
  else if st.nextFree < c.highestUsable then
    if st.entries st.nextFree = endMark ∨ isUsed (st.entries st.nextFree) = false then
      .ok (c.addrFromIndex st.nextFree,
        { st.setEntry st.nextFree (usedMask ||| 1) with nextFree := st.entries st.nextFree })
    else .error .assertFailed
  else .error .assertFailed

/-- mirrors phys_alloc.h:133-159 -/
def releaseOne (st : St) (addr : Nat) : Except Err St := do
  let index ← c.indexFromAddr addr
  if index < c.highestUsable then
    if isUsed (st.entries index) then
      if st.entries index = 1 ||| usedMask then
        return ⟨Function.update st.entries index st.nextFree, index,
          (st.freePageCount + 1) % 2 ^ 32⟩
      else return st.setEntry index ((st.entries index + 2 ^ 32 - 1) % 2 ^ 32)
    else .error .assertFailed
  else .error .assertFailed

/-- mirrors phys_alloc.cc:95-102 -/
def addref (st : St) (addr : Nat) : Except Err St := do
  let index ← (· % 2 ^ 32) <$> c.indexFromAddr addr
  if index < c.highestUsable then
    if isUsed (st.entries index) then
      return st.setEntry index ((st.entries index + 1) % 2 ^ 32)
    else .error .assertFailed
  else .error .assertFailed

end Cfg

/-! ## Batches -/

/-- `PTE_ADDR`, the address of an entry that is to be filled on demand. -/
def pteAddr : Nat := 0x000FFFFFFFFFF000

structure Sys where
  st : St
  batches : Nat → List Nat

def Sys.setBatch (s : Sys) (b : Nat) (pages : List Nat) : Sys :=
  { s with batches := Function.update s.batches b pages }

/-- The order in which a batch releases its pages; mirrors
phys_alloc.h:78-86 -/
def flushOrder : List Nat → List Nat
  | a :: b :: l => if b < a then a :: b :: l else (a :: b :: l).reverse
  | l => l

namespace Cfg

variable (c : Cfg)

def releaseAll : List Nat → St → Except Err St
  | [], st => .ok st
  | addr :: l, st => do
    let st ← c.releaseOne st addr
    releaseAll l st

/-- mirrors phys_alloc.h:72-88 -/
def flush (s : Sys) (b : Nat) : Except Err Sys := do
  let st ← c.releaseAll (flushOrder (s.batches b)) s.st
  return { s with st := st }.setBatch b []

def flushIfFull (s : Sys) (b : Nat) : Except Err Sys :=
  if (s.batches b).length = 16 then c.flush s b else .ok s

/-- mirrors phys_alloc.h:57-70 -/
def batchFree (s : Sys) (b addr : Nat) : Except Err Sys :=
  if addr = 0 ∨ addr = pteAddr then .ok s
  else if 0x100000 ≤ addr ∧ addr < 0x0010000000000000 then do
    let s ← c.flushIfFull s b
    return s.setBatch b (s.batches b ++ [addr])
  else .error .assertFailed

/-! ## Many pages -/

/-- Following the free chain for `n` pages or to its end: how many there were, and the link behind
the last; mirrors phys_alloc.h:199-203 -/
def follow (st : St) : Nat → Nat → Nat → Except Err (Nat × Nat)
  | 0, i, newNext => .ok (i, newNext)
  | n + 1, i, newNext =>
    if newNext = endMark then .ok (i, newNext)
    else if newNext < c.highestUsable then
      if st.entries newNext = endMark ∨ isUsed (st.entries newNext) = false then
        follow st n (i + 1) (st.entries newNext)
      else .error .assertFailed
    else .error .assertFailed

/-- Taking `count` pages off the chain, if there are so many; mirrors
phys_alloc.h:193-219 -/
def detach (st : St) (count : Nat) : Except Err (Option St) :=
  if isUsed st.nextFree then .error .assertFailed
  else do
    let (i, newNext) ← c.follow st count 0 st.nextFree
    return if i = count then
      some { st with
        nextFree := newNext
        freePageCount := (st.freePageCount + 2 ^ 32 - count % 2 ^ 32) % 2 ^ 32 }
    else none

/-- Handing out the pages from `first` on. The result is the first page that was not taken, how
many were, and the addresses the callback was given; mirrors
phys_alloc.h:226-251 -/
def provide (callback : Nat → Nat → Sys → Except Err (Bool × Sys)) (count : Nat) :
    Nat → Nat → Nat → Nat → Sys → Except Err (Nat × Nat × List Nat × Sys)
  | 0, _, usedCount, first, s => .ok (first, usedCount, [], s)
  | n + 1, i, usedCount, first, s =>
    if usedCount < count then
      if isUsed (s.st.entries first) then .error .assertFailed
      else do
        let (accepted, s') ← callback i (c.addrFromIndex first) s
        if accepted then
          let (first', used', handed, s'') ← provide callback count n (i + 1) (usedCount + 1)
            (s.st.entries first) { s' with st := s'.st.setEntry first (1 ||| usedMask) }
          return (first', used', c.addrFromIndex first :: handed, s'')
        else
          let (first', used', handed, s'') ← provide callback count n (i + 1) usedCount first s'
          return (first', used', c.addrFromIndex first :: handed, s'')
    else .ok (first, usedCount, [], s)

/-- The pages the callback refused go back on the chain; mirrors
phys_alloc.h:253-260 -/
def spliceBack (count usedCount first : Nat) (st : St) : St :=
  if usedCount ≠ count then
    { st with
      nextFree := first
      freePageCount := (st.freePageCount + (count - usedCount)) % 2 ^ 32 }
  else st

/-- mirrors phys_alloc.h:174-263 -/
def allocMultiple (s : Sys) (size : Nat) (callback : Nat → Nat → Sys → Except Err (Bool × Sys)) :
    Except Err (Bool × List Nat × Sys) :=
  if size % c.pagesz ≠ 0 then .error .assertFailed
  else if size >>> c.log2Pagesz = 0 then .ok (true, [], s)
  else do
    match ← c.detach s.st (size >>> c.log2Pagesz) with
    | none => return (false, [], s)
    | some st => do
      let (first, usedCount, handed, s') ← c.provide callback (size >>> c.log2Pagesz)
        (size >>> c.log2Pagesz) 0 0 s.st.nextFree { s with st := st }
      return (true, handed,
        { s' with st := spliceBack (size >>> c.log2Pagesz) usedCount first s'.st })

end Cfg

/-! ## Calls -/

inductive Call where
  | allocOne
  | addref (addr : Nat)
  | releaseOne (addr : Nat)
  | batchFree (b addr : Nat)
  | flush (b : Nat)

/-- The address `alloc_one` returns; 0 for the other calls. -/
def call (c : Cfg) (s : Sys) : Call → Except Err (Nat × Sys)
  | .allocOne => do
    let (addr, st) ← c.allocOne s.st
    return (addr, { s with st := st })
  | .addref addr => do
    let st ← c.addref s.st addr
    return (0, { s with st := st })
  | .releaseOne addr => do
    let st ← c.releaseOne s.st addr
    return (0, { s with st := st })
  | .batchFree b addr => do
    let s ← c.batchFree s b addr
    return (0, s)
  | .flush b => do
    let s ← c.flush s b
    return (0, s)

def calls (c : Cfg) : List Call → Sys → Except Err Sys
  | [], s => .ok s
  | x :: l, s => do
    let (_, s) ← call c s x
    calls c l s

/-- A callback that takes every page and makes some calls of its own for each. -/
def accepting (c : Cfg) (acts : Nat → List Call) (i _paddr : Nat) (s : Sys) :
    Except Err (Bool × Sys) := do
  let s ← calls c (acts i) s
  return (true, s)

inductive Op where
  | addFreeSpace (base size : Nat)
  | call (x : Call)
  | allocMultiple (size : Nat) (acts : Nat → List Call)

inductive Ret where
  | done
  | addr (a : Nat)
  | pages (success : Bool) (handed : List Nat)

def exec (c : Cfg) (s : Sys) : Op → Except Err (Ret × Sys)
  | .addFreeSpace base size => do
    let st ← c.addFreeSpace s.st base size
    return (.done, { s with st := st })
  | .call x => do
    let (a, s) ← call c s x
    return (.addr a, s)
  | .allocMultiple size acts => do
    let (success, handed, s) ← c.allocMultiple s size (accepting c acts)
    return (.pages success handed, s)

end Dgos.L2.PhysAlloc
