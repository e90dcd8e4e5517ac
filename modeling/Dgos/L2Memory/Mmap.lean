import Dgos.L2Memory.Translate

/-!
# `mmap` (kernel/arch/x86_64/cpu/mmu.cc:2138-2535)

A mapping gets a range of address space, from the allocator or at the address that was asked for,
and then entries: committed pages (`MAP_POPULATE`), one committed page and the shared zero page for
the rest (demand paging), the pages of a physical range (`MAP_PHYSICAL`), or, before the memory map
is handed over to `phys_allocator`, pages taken from the early ranges.

`Mm` adds to the page tables of `PageTable.St` the contents of physical memory, the batch of pages
that are released when the call returns, and whether the early ranges are still in use. The
physical pages are those of `frames`, in order, in both phases. Left out are the TLB, the
profiling, and the contents of page tables as memory.
-/
namespace Dgos.L2.PageTable

open ContigAlloc (Alloc Err assert assert_eq_ok pageSize releaseLinear roundUp sub64 w64 oneGB twoMB
  fourK hugeAlignment hugeLinear allocLinear takeLinear)

/-! ## Entries -/

def ptePwt : Nat := 2 ^ 3

def ptePcd : Nat := 2 ^ 4

def ptePageSize : Nat := 2 ^ ptePageSizeBit

/-- The bit of the page attribute table in the entry of a 4 KB page. -/
def ptePtePat : Nat := 2 ^ 7

/-- The bit of the page attribute table in the entry of a larger page. -/
def ptePdePat : Nat := 2 ^ 12

def pteExFilemap : Nat := 2 ^ 53

def pteNx : Nat := 2 ^ 63

/-- The address field of a page that faults on every access. -/
def guardAddr : Nat := (pteAddr >>> 1) &&& pteAddr

/-- `pte & ~bits`. -/
def without (pte bits : Nat) : Nat := pte &&& (w64 - 1 - bits)

/-! ## Arguments -/

/-- `PROT_*`; `invalid` stands for the other bits.
mirrors kernel/lib/mm.h:18-21 -/
structure Prot where
  read : Bool
  write : Bool
  exec : Bool
  invalid : Bool := false
  deriving DecidableEq, Repr

/-- `MAP_*`; `invalid` stands for the bits of `MAP_INVALID_MASK`. Flags that `mmap` does not look
at are left out.
mirrors kernel/lib/mm.h:27-93 -/
structure MapFlags where
  stack : Bool := false
  hugetlb : Bool := false
  populate : Bool := false
  uninitialized : Bool := false
  map32Bit : Bool := false
  nocommit : Bool := false
  exclusive : Bool := false
  global : Bool := false
  near : Bool := false
  user : Bool := false
  weakorder : Bool := false
  device : Bool := false
  writethru : Bool := false
  nocache : Bool := false
  physical : Bool := false
  invalid : Bool := false
  deriving DecidableEq, Repr

/-- The arguments; `file` is `fd >= 0`. -/
structure MapCall where
  addr : Nat
  len : Nat
  prot : Prot
  flags : MapFlags
  file : Bool := false

/-- What the processor supports. -/
structure Cpu where
  hasPat : Bool
  nxMask : Nat

namespace MapCall

/-- mirrors mmu.cc:2145-2157 -/
def refused (c : MapCall) : Bool :=
  c.prot.invalid || c.flags.invalid ||
    (c.flags.user && (c.flags.near || c.flags.device || c.flags.global || c.flags.uninitialized))

/-- mirrors mmu.cc:2172-2176 -/
def populates (c : MapCall) : Bool :=
  c.flags.populate || c.flags.map32Bit || (c.flags.stack && ! c.flags.user)

/-- mirrors mmu.cc:2182-2183 -/
def fileMapped (c : MapCall) : Bool := c.file && ! c.flags.device

/-- mirrors mmu.cc:2186 -/
def nocommit (c : MapCall) : Bool := c.flags.nocommit || c.fileMapped

/-- `prot & (PROT_READ | PROT_WRITE)` -/
def accessible (c : MapCall) : Bool := c.prot.read || c.prot.write

end MapCall

/-- mirrors mmu.cc:2118-2123 -/
def zeroIfFalse (cond : Bool) (bits : Nat) : Nat := if cond then bits else 0

/-- mirrors mmu.cc:2188-2196 -/
def cacheFlags (cpu : Cpu) (f : MapFlags) : Nat :=
  if ! f.weakorder then zeroIfFalse f.nocache ptePcd ||| zeroIfFalse f.writethru ptePwt
  else if cpu.hasPat then ptePtePat
  else ptePcd ||| ptePwt

/-- mirrors mmu.cc:2169-2203 -/
def pageFlags (cpu : Cpu) (c : MapCall) : Nat :=
  zeroIfFalse c.flags.physical (pteExPhysical ||| ptePresent) |||
    zeroIfFalse c.fileMapped (pteExFilemap ||| pteExDevice) ||| cacheFlags cpu c.flags |||
    zeroIfFalse c.populates ptePresent ||| zeroIfFalse c.flags.device pteExDevice |||
    zeroIfFalse c.flags.user pteUser ||| zeroIfFalse (! c.flags.user) pteGlobal |||
    zeroIfFalse c.prot.write pteWritable ||| zeroIfFalse (! c.prot.exec) (pteNx &&& cpu.nxMask)

/-! ## State -/

/-- `early` is `usable_early_mem_ranges`, `batch` the pages of `free_batch`. -/
structure Mm extends St where
  mem : Nat → Nat
  early : Bool
  batch : List Nat

namespace Mm

/-- The batch is released when the call returns. -/
def flush (s : Mm) : Mm := { s with frames := s.batch ++ s.frames, batch := [] }

/-- mirrors mmu.cc:970-1009 -/
def clearPhys (s : Mm) (addr : Nat) : Mm :=
  { s with mem := fun a => if addr ≤ a ∧ a < addr + pageSize then 0 else s.mem a }

def clearUnless (s : Mm) (uninitialized : Bool) (addr : Nat) : Mm :=
  if uninitialized then s else s.clearPhys addr

/-- mirrors mmu.cc:596-606 -/
def allocPhys (s : Mm) : Except Err (Nat × Mm) :=
  match s.frames with
  | [] => throw .outOfMemory
  | page :: frames => pure (page, { s with frames })

/-- The check before an entry is written. -/
def assertNotZeros (s : Mm) (pte : Nat) : Except Err Unit :=
  assert (pte &&& (pteAddr ||| pteWritable) ≠ s.zerosPage ||| pteWritable)

/-- `atomic_xchg` of an entry, and the release of what it mapped. -/
def exchange (s : Mm) (level i pte : Nat) : Mm :=
  let old := s.tables level i
  { s with
    tables := s.tables.set level i pte
    batch := if pteIsSysmem old then (old &&& pteAddr) :: s.batch else s.batch }

def createTables (s : Mm) (start size levels : Nat) : Except Err Mm := do
  let st ← createPagetables s.toSt start size levels
  return { s with toSt := st }

end Mm

/-! ## Address space -/

/-- The start of the mapping and the offset into its first page, or a failure. For huge pages the
offset is computed again, from the address that was rounded down already.
mirrors mmu.cc:2210-2275 -/
def mapSpace (s : Mm) (f : MapFlags) (addr len misalignment : Nat) :
    Except Err (Option (Nat × Nat) × Mm) :=
  let allocator := s.allocator f.user
  if addr = 0 ∨ f.physical then
    if ! f.hugetlb then do
      let (linear, a) ← allocLinear allocator len
      return (some (linear, misalignment), { s with toSt := s.setAllocator f.user a })
    else do
      let alignment := hugeAlignment addr
      let (linear, a) ← hugeLinear allocator len alignment
      return (some (linear, addr &&& (alignment - 1)), { s with toSt := s.setAllocator f.user a })
  else if f.user ∧ (0x7ffffffff000 ≤ addr ∨ 0x7ffffffff000 < (addr + len) % w64) then
    return (none, s)
  else do
    let (taken, a) ← takeLinear allocator addr len f.exclusive
    return (if taken then some (addr, misalignment) else none,
      { s with toSt := s.setAllocator f.user a })

/-! ## Committed pages -/

/-- The old entry is released by a test of its own.
mirrors mmu.cc:2306-2324 -/
def populatePages (flags : Nat) (uninitialized : Bool) : (count page : Nat) → Mm → Except Err Mm
  | 0, _, s => pure s
  | count + 1, page, s => do
    let (paddr, s) ← s.allocPhys
    let s := s.clearUnless uninitialized paddr
    let replacement := paddr ||| flags
    s.assertNotZeros replacement
    let old := s.tables 3 page
    populatePages flags uninitialized count (page + 1)
      { s with
        tables := s.tables.set 3 page replacement
        batch := if old ≠ 0 ∧ old &&& (ptePresent ||| pteExPhysical) = ptePresent then
            (old &&& pteAddr) :: s.batch
          else s.batch }

/-! ## Demand paging -/

/-- The page that is committed right away.
mirrors mmu.cc:2340-2346 -/
def commitFrame (s : Mm) (c : MapCall) : Except Err (Nat × Mm) :=
  if c.accessible && ! (c.nocommit || c.flags.device) then do
    let (paddr, s) ← s.allocPhys
    return (paddr, if paddr ≠ 0 then s.clearUnless c.flags.uninitialized paddr else s)
  else pure (0, s)

/-- The committed page is the first, or the last of a stack. The answer is the range of pages that
is left.
mirrors mmu.cc:2348-2378 -/
def commitPage (s : Mm) (c : MapCall) (flags paddr base count : Nat) :
    Except Err (Nat × Nat × Mm) := do
  let pte := if paddr ≠ 0 then paddr ||| flags else 0
  s.assertNotZeros pte
  if c.accessible && ! c.nocommit then do
    let pte := if paddr ≠ 0 ∧ paddr &&& pteAddr ≠ pteAddr then pte ||| ptePresent else pte
    s.assertNotZeros pte
    if paddr = 0 then pure (0, count, s)
    else if ! c.flags.stack then pure (1, count, s.exchange 3 base pte)
    else pure (0, count - 1, s.exchange 3 (base + (count - 1)) pte)
  else pure (0, count, s)

/-- mirrors mmu.cc:2382-2388 -/
def demandEntry (s : Mm) (c : MapCall) (flags : Nat) : Nat :=
  if ! c.flags.device then
    without flags pteWritable |||
      (if c.accessible then s.zerosPage ||| ptePresent ||| pteExDemand else guardAddr)
  else flags ||| pteAddr

/-- mirrors mmu.cc:2394-2401 -/
def demandFill (pte : Nat) : (count page : Nat) → Mm → Mm
  | 0, _, s => s
  | count + 1, page, s => demandFill pte count (page + 1) (s.exchange 3 page pte)

/-- mirrors mmu.cc:2333-2401 -/
def mapDemand (s : Mm) (c : MapCall) (flags base count : Nat) : Except Err Mm := do
  let (paddr, s) ← commitFrame s c
  let (ofs, fin, s) ← commitPage s c flags paddr base count
  let pte := demandEntry s c flags
  s.assertNotZeros pte
  return demandFill pte (fin - ofs) (base + ofs) s

/-! ## Physical ranges -/

/-- mirrors mmu.cc:2429-2432, 2443-2446 -/
def hugeFlags (flags : Nat) : Nat :=
  ptePageSize ||| (if flags &&& ptePtePat ≠ 0 then without flags ptePtePat ||| ptePdePat else flags)

/-- The level, the size and the flags of the next run of entries. The count of 4 KB pages up to
the next boundary of 2 MB is overwritten in the source by that of the whole rest.
mirrors mmu.cc:2416-2464 -/
def physRun (huge : Bool) (flags paddr len : Nat) : Nat × Nat × Nat :=
  if huge ∧ paddr = maskNeg 64 paddr oneGB ∧ oneGB ≤ len then (1, 30, hugeFlags flags)
  else if huge ∧ paddr = maskNeg 64 paddr twoMB ∧ twoMB ≤ len then (2, 21, hugeFlags flags)
  else (3, 12, flags)

/-- mirrors mmu.cc:2473-2483 -/
def physEntries (level shift flags : Nat) : (count i paddr : Nat) → Mm → Mm
  | 0, _, _, s => s
  | count + 1, i, paddr, s =>
    physEntries level shift flags count (i + 1) ((paddr + 2 ^ shift) % w64)
      (s.exchange level i (paddr ||| flags))

/-- mirrors mmu.cc:2404-2484 -/
def mapPhysical (huge : Bool) (flags : Nat) : (fuel paddr vaddr len : Nat) → Mm → Except Err Mm
  | 0, _, _, _, _ => throw .fuel
  | fuel + 1, paddr, vaddr, len, s => do
    let (level, shift, entryFlags) := physRun huge flags paddr len
    let count := len >>> shift
    let total := count <<< shift
    let s ← s.createTables vaddr total level
    let s := physEntries level shift entryFlags count (pteIndex level (ptesFromAddr vaddr)) paddr s
    let len := len - total
    if len = 0 then pure s
    else mapPhysical huge flags fuel ((paddr + total) % w64) ((vaddr + total) % w64) len s

/-! ## Before the memory map is handed over -/

/-- A table of the path, if the entry is empty.
mirrors mmu.cc:1030-1038 -/
def earlyTable (s : Mm) (pathFlags level page : Nat) : Except Err Mm :=
  if pteAt s.tables level page = 0 then do
    let (ptaddr, s) ← s.allocPhys
    let i := pteIndex level page
    let entry := without (ptaddr ||| pathFlags) pteGlobal
    return { s with tables := (s.tables.clear (level + 1) i).set level i entry }
  else pure s

/-- mirrors mmu.cc:1025-1044 -/
def earlyTables (s : Mm) (addr page : Nat) : Except Err Mm :=
  if ptesPresent s.tables page &&& 7 ≠ 7 then do
    let pathFlags := ptePresent ||| pteWritable ||| (if addr ≤ 0x7fffffffffff then pteUser else 0)
    let s ← earlyTable s pathFlags 0 page
    let s ← earlyTable s pathFlags 1 page
    earlyTable s pathFlags 2 page
  else pure s

/-- mirrors mmu.cc:1014-1047 -/
def mmuMapPage (s : Mm) (addr physaddr flags : Nat) : Except Err Mm := do
  let page := ptesFromAddr addr
  let s ← earlyTables s addr page
  return { s with tables := s.tables.set 3 page ((physaddr &&& pteAddr) ||| flags) }

/-- The page of an early mapping: taken now, or on the first access.
mirrors mmu.cc:2505-2515 -/
def earlyFrame (s : Mm) (c : MapCall) (ofs : Nat) : Except Err (Nat × Mm) :=
  if ofs = pageSize ∨ c.populates then do
    let (page, s) ← s.allocPhys
    assert (page ≠ 0)
    return (page, s.clearUnless c.flags.uninitialized page)
  else pure (pteAddr, s)

/-- From the last page down; `count` pages are left. A physical page is that of the offset behind
the page.
mirrors mmu.cc:2500-2526 -/
def mapEarly (c : MapCall) (flags addr linear : Nat) : (count : Nat) → Mm → Except Err Mm
  | 0, s => pure s
  | count + 1, s => do
    let ofs := (count + 1) * pageSize
    let target := (linear + ofs + w64 - pageSize) % w64
    if ! c.flags.physical then
      let (page, s) ← earlyFrame s c ofs
      mapEarly c flags addr linear count (← mmuMapPage s target page flags)
    else
      let page := ((addr + ofs) % w64) &&& pteAddr
      mapEarly c flags addr linear count (← mmuMapPage s target page flags)

/-! ## The call -/

/-- The entries of a mapping of `len` bytes at `linear`.
mirrors mmu.cc:2286-2527 -/
def mapPages (cpu : Cpu) (s : Mm) (c : MapCall) (addr linear len : Nat) : Except Err Mm :=
  let flags := pageFlags cpu c
  if s.early then mapEarly c flags addr linear (len / pageSize) s
  else if c.flags.physical then
    mapPhysical c.flags.hugetlb flags (len / pageSize + 1) addr linear len s
  else do
    let s ← s.createTables linear len 3
    let base := ptesFromAddr linear
    let count := len >>> 12
    if c.populates then populatePages flags c.flags.uninitialized count base s
    else mapDemand s c flags base count

/-- The answer is the address, 0 for an empty mapping, or none for `MAP_FAILED`.
mirrors mmu.cc:2138-2535 -/
def mmap (cpu : Cpu) (s : Mm) (c : MapCall) : Except Err (Option Nat × Mm) :=
  if c.refused then pure (none, s)
  else if c.len = 0 then pure (some 0, s)
  else do
    let misalignment := c.addr % pageSize
    let addr := c.addr - misalignment
    let len := roundUp ((c.len + misalignment) % w64)
    let (space, s) ← mapSpace s c.flags addr len misalignment
    match space with
    | none => pure (none, s)
    | some (linear, misalignment) => do
      assert (0x100000 < linear)
      let s ← mapPages cpu s c addr linear len
      return (some ((linear + misalignment) % w64), s.flush)

end Dgos.L2.PageTable
