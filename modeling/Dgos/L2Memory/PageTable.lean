import Dgos.L2Memory.MmapHuge

/-!
# Page tables of a mapping (kernel/arch/x86_64/cpu/mmu.cc)

The four levels of page tables are mapped into the address space as four arrays of entries,
`PT0_PTR` to `PT3_PTR`; entry `i` of a level points to the page with the entries `512 * i` and
up of the next. `Tables` is the contents of the arrays: the entries under an entry that is not
present are not there, and a table that is created is cleared first. A pointer `ptes[level]`
is an index into its array; all four follow from that of `ptes[3]`, the number of the page.

Modelled are the page tables, the physical pages that are taken and given back, and the two
allocators of address space, for one thread of the kernel. The TLB is left out, with the
variables that only decide on its invalidation, and so are the aliases of the arrays in the
recursive slot.

Results:
* `munmapLoop_spec`: over 4 KB pages the loop of `munmap` clears the entries of its pages and
  nothing else.
* `createLevel_spec`: the entries of a level that were not there are new tables.
* `fillEntries_spec`: a run of entries is overwritten, and nothing else.
-/
namespace Dgos.L2.PageTable

open Nat
open ContigAlloc (Alloc Err assert assert_eq_ok pageSize releaseLinear roundUp sub64 w64)

/-! ## Entries -/

def ptePresentBit : Nat := 0

def ptePageSizeBit : Nat := 7

def ptePresent : Nat := 2 ^ ptePresentBit

def pteWritable : Nat := 2 ^ 1

def pteUser : Nat := 2 ^ 2

def pteAccessed : Nat := 2 ^ 5

def pteDirty : Nat := 2 ^ 6

def pteGlobal : Nat := 2 ^ 8

def pteExPhysical : Nat := 2 ^ 9

def pteExDevice : Nat := 2 ^ 11

def pteExDemand : Nat := 2 ^ 54

def pteAddr : Nat := (2 ^ 40 - 1) <<< 12

def present (pte : Nat) : Bool := pte.testBit ptePresentBit

def isPageSize (pte : Nat) : Bool := pte.testBit ptePageSizeBit

/-- mirrors kernel/arch/mmu.h:280-285 -/
def pteIsSysmem (pte : Nat) : Bool :=
  pte &&& (ptePresent ||| pteExPhysical ||| pteExDevice ||| pteExDemand) = ptePresent

/-! ## Tables -/

/-- The entries, by level and index. -/
abbrev Tables := Nat → Nat → Nat

namespace Tables

def set (t : Tables) (level i pte : Nat) : Tables := fun l j =>
  if l = level ∧ j = i then pte else t l j

/-- The table under entry `i` of the level above is cleared. -/
def clear (t : Tables) (level i : Nat) : Tables := fun l j =>
  if l = level ∧ j >>> 9 = i then 0 else t l j

end Tables

/-- The index of `ptes[level]` for a page. -/
def pteIndex (level page : Nat) : Nat := page >>> (9 * (3 - level))

/-- `*ptes[level]`. -/
def pteAt (t : Tables) (level page : Nat) : Nat := t level (pteIndex level page)

/-- mirrors kernel/arch/mmu.h:267-278 -/
def ptesFromAddr (addr : Nat) : Nat := (addr &&& 0xfffffffff000) >>> 12

/-- mirrors mmu.cc:619-634 -/
def ptesPresent (t : Tables) (page : Nat) : Nat :=
  if ! present (pteAt t 0 page) then 0
  else if ! present (pteAt t 1 page) then 1
  else if isPageSize (pteAt t 1 page) || ! present (pteAt t 2 page) then 3
  else if isPageSize (pteAt t 2 page) || ! present (pteAt t 3 page) then 7
  else 15

/-- `linear` is `linear_allocator`, `process` the allocator of the current process, and
`frames` the physical pages that `phys_allocator` hands out, in order. -/
structure St where
  tables : Tables
  frames : List Nat
  zerosPage : Nat
  process : Alloc
  linear : Alloc

/-- The first address that the process does not own. -/
def lowEnd : Nat := 0x800000000000

def St.allocator (s : St) (low : Bool) : Alloc := if low then s.process else s.linear

def St.setAllocator (s : St) (low : Bool) (a : Alloc) : St :=
  if low then { s with process := a } else { s with linear := a }

@[simp] theorem allocator_setAllocator (s : St) (low : Bool) (a : Alloc) :
    (s.setAllocator low a).allocator low = a := by
  cases low <;> rfl

@[simp] theorem allocator_setAllocator_not (s : St) (low : Bool) (a : Alloc) :
    (s.setAllocator low a).allocator (!low) = s.allocator (!low) := by
  cases low <;> rfl

@[simp] theorem tables_setAllocator (s : St) (low : Bool) (a : Alloc) :
    (s.setAllocator low a).tables = s.tables := by
  cases low <;> rfl

@[simp] theorem frames_setAllocator (s : St) (low : Bool) (a : Alloc) :
    (s.setAllocator low a).frames = s.frames := by
  cases low <;> rfl

/-! ## `munmap` -/

/-- The variables of the loop; `page` stands for `ptes` and `freed` for `free_batch`. -/
structure Walk where
  tables : Tables
  page : Nat
  a : Nat
  ofs : Nat
  presentMask : Nat
  freed : List Nat

/-- The pages of a huge page of `2 ^ k` bytes.
mirrors mmu.cc:2699-2704, 2719-2724 -/
def hugeFrames (k pte : Nat) : List Nat :=
  if pte &&& (pteExPhysical ||| ptePresent) = ptePresent then
    (List.range (2 ^ (k - 12))).map fun i => (pte &&& maskNeg 64 pteAddr (2 ^ k)) + i * pageSize
  else []

/-- Clears the entry that maps the page; answers the distance to the next one. An address
without a page directory is passed over by 1 GB, whatever lies there.
mirrors mmu.cc:2678-2729 -/
def unmapEntry (w : Walk) : Nat × Tables × List Nat :=
  if w.presentMask &&& 7 = 7 then
    if isPageSize (pteAt w.tables 2 w.page) then
      (2 ^ 21, w.tables.set 2 (pteIndex 2 w.page) 0,
        hugeFrames 21 (pteAt w.tables 2 w.page) ++ w.freed)
    else
      let pte := pteAt w.tables 3 w.page
      (pageSize, w.tables.set 3 w.page 0,
        if pteIsSysmem pte then (pte &&& pteAddr) :: w.freed else w.freed)
  else if w.presentMask &&& 3 = 3 then
    if isPageSize (pteAt w.tables 1 w.page) then
      (2 ^ 30, w.tables.set 1 (pteIndex 1 w.page) 0,
        hugeFrames 30 (pteAt w.tables 1 w.page) ++ w.freed)
    else (2 ^ 30, w.tables, w.freed)
  else (pageSize, w.tables, w.freed)

/-- One round of the loop. The mask is read again at 2 MB boundaries only.
mirrors mmu.cc:2675-2744, 1975-1983 -/
def unmapStep (w : Walk) : Walk :=
  let (distance, tables, freed) := unmapEntry w
  let page := w.page + distance >>> 12
  { tables
    page
    a := (w.a + distance) % w64
    ofs := (w.ofs + distance) % w64
    presentMask := if page &&& 0x1ff = 0 then ptesPresent tables page else w.presentMask
    freed }

/-- mirrors mmu.cc:2674-2745 -/
def munmapLoop (size : Nat) : Nat → Walk → Except Err Walk
  | 0, _ => throw .fuel
  | fuel + 1, w => if w.ofs < size then munmapLoop size fuel (unmapStep w) else pure w

/-- mirrors mmu.cc:2654-2765 -/
def munmap (s : St) (addr size : Nat) : Except Err St := do
  let misalignment := addr % pageSize
  let a := addr - misalignment
  let size := roundUp ((size + misalignment) % w64)
  let page := ptesFromAddr a
  let w ← munmapLoop size (size / pageSize + 1)
    { tables := s.tables, page, a, ofs := 0, presentMask := ptesPresent s.tables page, freed := [] }
  let s := { s with tables := w.tables, frames := w.freed ++ s.frames }
  -- `a` stands behind the range here
  let low : Bool := w.a < lowEnd
  let allocator ← releaseLinear (s.allocator low) a size
  return s.setAllocator low allocator

/-! ## `mm_create_pagetables_aligned` -/

/-- A cleared page becomes the table under entry `i` of the level.
mirrors mmu.cc:2089-2106, 596-606 -/
def newTable (s : St) (pageFlags level i : Nat) : Except Err St :=
  match s.frames with
  | [] => throw .outOfMemory
  | page :: frames => do
    assert (page ≠ 0)
    let replacement := (page ||| pageFlags) &&& (w64 - 1 - pteGlobal)
    assert (replacement &&& (pteAddr ||| pteWritable) ≠ s.zerosPage ||| pteWritable)
    return { s with frames, tables := (s.tables.clear (level + 1) i).set level i replacement }

/-- mirrors mmu.cc:2087-2107 -/
def needTable (s : St) (pageFlags level i : Nat) : Except Err St :=
  if present (s.tables level i) then pure s else newTable s pageFlags level i

/-- mirrors mmu.cc:2086-2108 -/
def createLevel (pageFlags level : Nat) : (count i : Nat) → St → Except Err St
  | 0, _, s => pure s
  | count + 1, i, s => do createLevel pageFlags level count (i + 1) (← needTable s pageFlags level i)

/-- `count` levels from `level` on.
mirrors mmu.cc:2080-2113 -/
def createLevels (pageFlags st en : Nat) : (count level : Nat) → St → Except Err St
  | 0, _, s => pure s
  | count + 1, level, s => do
    let rangeCount := (sub64 (pteIndex level en) (pteIndex level st) + 1) % w64
    createLevels pageFlags st en count (level + 1)
      (← createLevel pageFlags level rangeCount (pteIndex level st) s)

/-- mirrors mmu.cc:2071-2076 -/
def tableFlags (start : Nat) : Nat :=
  (if start &&& 0xffffffffffff < lowEnd then 0 else pteGlobal) ||| pteUser ||| pteAccessed |||
    pteDirty ||| ptePresent ||| pteWritable

/-- Nothing is to be done where the range is under one entry that is there.
mirrors mmu.cc:2039-2116 -/
def createPagetables (s : St) (start size levels : Nat) : Except Err St :=
  let st := ptesFromAddr start
  let en := ptesFromAddr ((start + size + w64 - 1) % w64)
  if pteIndex (levels - 1) st = pteIndex (levels - 1) en ∧
      ∀ level < levels, present (pteAt s.tables level st) then pure s
  else createLevels (tableFlags start) st en levels 0 s

/-! ## Runs of entries -/

/-- `count` entries from `base` on are exchanged for `replacement`.
mirrors mmu.cc:2620-2625, 2645-2649 -/
def fillEntries (replacement : Nat) : (count base : Nat) → Tables × List Nat → Tables × List Nat
  | 0, _, r => r
  | count + 1, base, (t, freed) =>
    let pte := t 3 base
    fillEntries replacement count (base + 1)
      (t.set 3 base replacement, if pteIsSysmem pte then (pte &&& pteAddr) :: freed else freed)

/-- `count` entries go from `old` to `base`.
mirrors mmu.cc:2636-2643 -/
def moveEntries : (count old base : Nat) → Tables × List Nat → Tables × List Nat
  | 0, _, _, r => r
  | count + 1, old, base, (t, freed) =>
    let moved := t 3 old
    let t := t.set 3 old 0
    let pte := t 3 base
    moveEntries count (old + 1) (base + 1)
      (t.set 3 base moved, if pteIsSysmem pte then (pte &&& pteAddr) :: freed else freed)

/-! ## Pages with an entry of their own -/

/-- A page table holds the entry of the page. -/
structure Walkable (t : Tables) (page : Nat) : Prop where
  top : present (pteAt t 0 page) = true
  dirs : present (pteAt t 1 page) = true
  dirsSmall : isPageSize (pteAt t 1 page) = false
  dir : present (pteAt t 2 page) = true
  dirSmall : isPageSize (pteAt t 2 page) = false

/-- A page of 2 MB or 1 GB covers the page. -/
def HugeMapped (t : Tables) (page : Nat) : Prop :=
  present (pteAt t 0 page) = true ∧ present (pteAt t 1 page) = true ∧
    (isPageSize (pteAt t 1 page) = true ∨
      present (pteAt t 2 page) = true ∧ isPageSize (pteAt t 2 page) = true)

variable {t t' : Tables} {page q level n count l p st en : Nat} {w : Walk}

theorem Walkable.congr (h : Walkable t page)
    (heq : ∀ l < 3, pteAt t' l page = pteAt t l page) : Walkable t' page where
  top := by rw [heq 0 (by omega)]; exact h.top
  dirs := by rw [heq 1 (by omega)]; exact h.dirs
  dirsSmall := by rw [heq 1 (by omega)]; exact h.dirsSmall
  dir := by rw [heq 2 (by omega)]; exact h.dir
  dirSmall := by rw [heq 2 (by omega)]; exact h.dirSmall

theorem Walkable.ptesPresent (h : Walkable t page) : ptesPresent t page &&& 7 = 7 := by
  unfold PageTable.ptesPresent
  rw [h.top, h.dirs, h.dirsSmall, h.dir, h.dirSmall]
  cases present (pteAt t 3 page) <;> rfl

/-- The tables with the entries of `count` pages from `page` on set to `pte`. -/
def Tables.setRange (t : Tables) (page count pte : Nat) : Tables := fun l j =>
  if l = 3 ∧ page ≤ j ∧ j < page + count then pte else t l j

theorem Tables.setRange_zero (t : Tables) (page pte : Nat) : t.setRange page 0 pte = t := by
  funext l j
  exact if_neg (by omega)

theorem Tables.setRange_succ (t : Tables) (page count pte : Nat) :
    (t.set 3 page pte).setRange (page + 1) count pte = t.setRange page (count + 1) pte := by
  funext l j
  unfold Tables.setRange Tables.set
  by_cases hj : l = 3 ∧ j = page
  · rw [if_pos (show l = 3 ∧ page ≤ j ∧ j < page + (count + 1) by omega), if_pos hj, ite_self]
  · rw [if_neg hj]
    exact if_congr (by omega) rfl rfl

theorem Walkable.setRange (h : Walkable t q) (page count pte : Nat) :
    Walkable (t.setRange page count pte) q :=
  h.congr fun l hl => if_neg (by omega)

theorem Walkable.set (h : Walkable t q) (page pte : Nat) : Walkable (t.set 3 page pte) q :=
  h.congr fun l hl => if_neg (by omega)

theorem fillEntries_spec (replacement count base : Nat) (t : Tables) (freed : List Nat) :
    (fillEntries replacement count base (t, freed)).1 = t.setRange base count replacement := by
  induction count generalizing base t freed with
  | zero => exact (t.setRange_zero base replacement).symm
  | succ count ih => rw [fillEntries, ih, t.setRange_succ]

/-! ## `munmap` over pages of 4 KB -/

theorem unmapStep_small (hmask : w.presentMask &&& 7 = 7) (hw : Walkable w.tables w.page) :
    (unmapStep w).tables = w.tables.set 3 w.page 0 ∧ (unmapStep w).page = w.page + 1 ∧
      (unmapStep w).a = (w.a + pageSize) % w64 ∧ (unmapStep w).ofs = (w.ofs + pageSize) % w64 ∧
      (Walkable w.tables (w.page + 1) → (unmapStep w).presentMask &&& 7 = 7) := by
  have hentry : ∃ freed, unmapEntry w = (pageSize, w.tables.set 3 w.page 0, freed) := by
    unfold unmapEntry
    rw [if_pos hmask, hw.dirSmall]
    exact ⟨_, rfl⟩
  obtain ⟨freed, he⟩ := hentry
  unfold unmapStep
  rw [he]
  refine ⟨rfl, rfl, rfl, rfl, fun hnext => ?_⟩
  show (if (w.page + 1) &&& 0x1ff = 0 then _ else _) &&& 7 = 7
  split
  · exact (hnext.set w.page 0).ptesPresent
  · exact hmask

theorem munmapLoop_spec (size fuel : Nat) (hmask : 0 < n → w.presentMask &&& 7 = 7)
    (hwalk : ∀ q, w.page ≤ q → q < w.page + n → Walkable w.tables q)
    (hofs : w.ofs + n * pageSize = size) (hsize : size < w64) (ha : w.a + n * pageSize < w64)
    (hfuel : n < fuel) :
    ∃ w', munmapLoop size fuel w = .ok w' ∧ w'.a = w.a + n * pageSize ∧
      w'.tables = w.tables.setRange w.page n 0 := by
  induction n generalizing w fuel with
  | zero =>
    obtain _ | fuel := fuel
    · omega
    refine ⟨w, ?_, by omega, (w.tables.setRange_zero w.page 0).symm⟩
    rw [munmapLoop, if_neg (by omega)]
    rfl
  | succ n ih =>
    obtain _ | fuel := fuel
    · omega
    have hw := hwalk w.page (by omega) (by omega)
    obtain ⟨ht, hp, hstepa, hstepofs, hm⟩ := unmapStep_small (hmask (by omega)) hw
    have hpos : 0 < pageSize := by decide
    have hmul : (n + 1) * pageSize = n * pageSize + pageSize := succ_mul n pageSize
    rw [mod_eq_of_lt (by omega)] at hstepa hstepofs
    obtain ⟨w', hok, ha', ht'⟩ := ih fuel (fun hn => hm (hwalk _ (by omega) (by omega)))
      (fun q h1 h2 => by rw [ht]; exact (hwalk q (by omega) (by omega)).set _ _)
      (by omega) (by omega) (by omega)
    refine ⟨w', ?_, by omega, ?_⟩
    · rw [munmapLoop, if_pos (by omega)]
      exact hok
    · rw [ht', ht, hp, Tables.setRange_succ]

/-! ## New tables -/

/-- Nothing but the tables and the physical pages has changed, and the pages by handing some out. -/
structure OnlyTables (s s' : St) : Prop where
  frames : ∀ f ∈ s'.frames, f ∈ s.frames
  process : s'.process = s.process
  linear : s'.linear = s.linear

theorem OnlyTables.refl (s : St) : OnlyTables s s := ⟨fun _ h => h, rfl, rfl⟩

theorem OnlyTables.trans {s s' s'' : St} (h : OnlyTables s s') (h' : OnlyTables s' s'') :
    OnlyTables s s'' where
  frames f hf := h.frames f (h'.frames f hf)
  process := h'.process.trans h.process
  linear := h'.linear.trans h.linear

/-- Entries of the level were created in `[i, i + count)`. -/
structure Filled (t t' : Tables) (level i count : Nat) : Prop where
  keep : ∀ l j, (l = level → present (t l j) = true) →
    (l = level + 1 → present (t level (j >>> 9)) = true) → t' l j = t l j
  made : ∀ j, i ≤ j → j < i + count → present (t' level j) = true
  small : ∀ j, present (t level j) = false → present (t' level j) = true →
    isPageSize (t' level j) = false
  cleared : ∀ j, present (t level (j >>> 9)) = false → present (t' level (j >>> 9)) = true →
    t' (level + 1) j = 0

theorem Filled.refl (t : Tables) (level i : Nat) : Filled t t level i 0 where
  keep _ _ _ _ := rfl
  made j h1 h2 := by omega
  small j h1 h2 := by rw [h1] at h2; cases h2
  cleared j h1 h2 := by rw [h1] at h2; cases h2

theorem Filled.trans {t'' : Tables} {i : Nat} (h : Filled t t' level i 1)
    (h' : Filled t' t'' level (i + 1) count) : Filled t t'' level i (count + 1) where
  keep l j h1 h2 := by
    have e := h.keep l j h1 h2
    rw [h'.keep l j (fun hl => by rw [e]; exact h1 hl) fun hl => ?_, e]
    rw [h.keep level (j >>> 9) (fun _ => h2 hl) (fun hc => by omega)]
    exact h2 hl
  made j h1 h2 := by
    rcases eq_or_lt_of_le h1 with rfl | hlt
    · have hp := h.made i (by omega) (by omega)
      rw [h'.keep level i (fun _ => hp) (fun hc => by omega)]
      exact hp
    · exact h'.made j hlt (by omega)
  small j h1 h2 := by
    cases hp : present (t' level j) with
    | false => exact h'.small j hp h2
    | true =>
      rw [h'.keep level j (fun _ => hp) (fun hc => by omega)]
      exact h.small j h1 hp
  cleared j h1 h2 := by
    cases hp : present (t' level (j >>> 9)) with
    | false => exact h'.cleared j hp h2
    | true =>
      rw [h'.keep (level + 1) j (fun hc => by omega) (fun _ => hp)]
      exact h.cleared j h1 hp

theorem newEntry_bits {flags : Nat} (hp : present flags = true) (hs : isPageSize flags = false)
    (h : page % pageSize = 0) : present ((page ||| flags) &&& (w64 - 1 - pteGlobal)) = true ∧
      isPageSize ((page ||| flags) &&& (w64 - 1 - pteGlobal)) = false := by
  have hm : (w64 - 1 - pteGlobal).testBit ptePresentBit = true := by decide
  have h7 : page.testBit ptePageSizeBit = false := by
    have := testBit_mod_two_pow page 12 7
    rw [show page % 2 ^ 12 = 0 from h] at this
    simpa [ptePageSizeBit] using this.symm
  rw [present] at hp ⊢
  rw [isPageSize] at hs ⊢
  simp only [testBit_and, testBit_or, hp, hm, hs, h7, Bool.or_true, Bool.or_false,
    Bool.and_true, Bool.false_and, and_self]

theorem filled_newTable {i pte : Nat} (hold : present (t level i) = false)
    (hnew : present pte = true) (hsmall : isPageSize pte = false) :
    Filled t ((t.clear (level + 1) i).set level i pte) level i 1 where
  keep l j h1 h2 := by
    unfold Tables.set Tables.clear
    rw [if_neg, if_neg]
    · rintro ⟨hl, rfl⟩
      rw [h2 hl] at hold
      cases hold
    · rintro ⟨rfl, rfl⟩
      rw [h1 rfl] at hold
      cases hold
  made j h1 h2 := by
    obtain rfl : j = i := by omega
    simp only [Tables.set, and_self, if_true]
    exact hnew
  small j h1 h2 := by
    by_cases hj : j = i
    · subst hj
      simp only [Tables.set, and_self, if_true]
      exact hsmall
    · simp [Tables.set, Tables.clear, hj, h1] at h2
  cleared j h1 h2 := by
    by_cases hj : j >>> 9 = i
    · simp [Tables.set, Tables.clear, hj]
    · simp [Tables.set, Tables.clear, hj, h1] at h2

theorem roundUp_eq (h : n + pageSize ≤ w64) :
    roundUp n = (n + (pageSize - 1)) / pageSize * pageSize := by
  have hlt : n + (pageSize - 1) < 2 ^ 64 := by
    unfold pageSize w64 at *
    omega
  unfold roundUp
  rw [mod_eq_of_lt (show n + (pageSize - 1) < w64 from hlt)]
  exact maskNeg_two_pow (k := 12) hlt (by decide)

theorem roundUp_of_mod (h : n % pageSize = 0) (hlt : n + pageSize ≤ w64) : roundUp n = n := by
  rw [roundUp_eq hlt]
  unfold pageSize at *
  omega

theorem ptesFromAddr_eq (addr : Nat) : ptesFromAddr addr = addr % 2 ^ 48 / pageSize := by
  have hmask : (0xfffffffff000 : Nat) = (2 ^ 36 - 1) <<< 12 := by decide
  unfold ptesFromAddr pageSize
  rw [hmask]
  refine eq_of_testBit_eq fun i => ?_
  rw [testBit_shiftRight, testBit_and, testBit_shiftLeft, testBit_two_pow_sub_one,
    show 4096 = 2 ^ 12 from rfl, testBit_div_two_pow, testBit_mod_two_pow]
  by_cases hi : i < 36
  · simp [hi, show i + 12 < 48 by omega, add_comm]
  · simp [hi, show ¬ i + 12 < 48 by omega]

theorem pteIndex_mono (h : p ≤ q) : pteIndex l p ≤ pteIndex l q := by
  unfold pteIndex
  rw [shiftRight_eq_div_pow, shiftRight_eq_div_pow]
  exact Nat.div_le_div_right h

theorem pteIndex_le (level p : Nat) : pteIndex level p ≤ p := by
  exact shiftRight_le p _

theorem pteIndex_shift (h : l < 3) (p : Nat) : pteIndex (l + 1) p >>> 9 = pteIndex l p := by
  unfold pteIndex
  rw [← shiftRight_add]
  congr 1
  omega

theorem lt_rangeCount (hen : en + 1 < w64) (hle : st ≤ en) (hq : q ≤ en) : pteIndex level q <
      pteIndex level st + (sub64 (pteIndex level en) (pteIndex level st) + 1) % w64 := by
  have h1 := pteIndex_mono (l := level) hle
  have h2 := pteIndex_mono (l := level) hq
  have h3 := pteIndex_le level en
  rw [ContigAlloc.sub64_eq h1 (by omega), mod_eq_of_lt (by omega)]
  omega

section

variable {s s' : St} {start : Nat} (hframes : ∀ f ∈ s.frames, f % pageSize = 0)
include hframes

variable {i : Nat}

theorem newTable_spec (hold : present (s.tables level i) = false)
    (h : newTable s (tableFlags start) level i = .ok s') :
    OnlyTables s s' ∧ Filled s.tables s'.tables level i 1 := by
  unfold newTable at h
  cases hf : s.frames with
  | nil => rw [hf] at h; cases h
  | cons page frames =>
    rw [hf] at h
    obtain ⟨-, -, h⟩ := bind_eq_ok h
    obtain ⟨-, -, h⟩ := bind_eq_ok h
    cases h
    have hbits : present (tableFlags start) = true ∧ isPageSize (tableFlags start) = false := by
      unfold tableFlags
      split <;> decide
    obtain ⟨hnew, hsmall⟩ := newEntry_bits hbits.1 hbits.2
      (hframes page (by rw [hf]; exact List.mem_cons_self))
    exact ⟨⟨fun f hm => hf ▸ List.mem_cons_of_mem _ hm, rfl, rfl⟩, filled_newTable hold hnew hsmall⟩

theorem needTable_spec (h : needTable s (tableFlags start) level i = .ok s') :
    OnlyTables s s' ∧ Filled s.tables s'.tables level i 1 := by
  unfold needTable at h
  cases hp : present (s.tables level i) with
  | true =>
    rw [hp] at h
    cases h
    refine ⟨.refl s, fun _ _ _ _ => rfl, fun j h1 h2 => ?_, ?_, ?_⟩
    · obtain rfl : j = i := by omega
      exact hp
    · exact (Filled.refl s.tables level i).small
    · exact (Filled.refl s.tables level i).cleared
  | false =>
    rw [hp] at h
    exact newTable_spec hframes hp h

theorem createLevel_spec (h : createLevel (tableFlags start) level count i s = .ok s') :
    OnlyTables s s' ∧ Filled s.tables s'.tables level i count := by
  induction count generalizing s i with
  | zero =>
    cases h
    exact ⟨.refl _, .refl _ level i⟩
  | succ count ih =>
    obtain ⟨s1, h1, h2⟩ := bind_eq_ok h
    obtain ⟨ho, hf⟩ := needTable_spec hframes h1
    obtain ⟨ho', hf'⟩ := ih (fun f hm => hframes f (ho.frames f hm)) h2
    exact ⟨ho.trans ho', hf.trans hf'⟩

end

end Dgos.L2.PageTable
