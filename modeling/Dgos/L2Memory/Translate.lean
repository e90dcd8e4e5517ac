import Dgos.L2Memory.PageTable

/-!
# What the page tables map

The processor's own reading of the four levels: an address is mapped by an entry of 1 GB, 2 MB or
4 KB, the first one of the walk that is not a table, or by none. `leaf` is that entry and
`translate` the physical page it gives.

Results:
* `leaf_set_pt`, `leaf_set_pd`, `leaf_set_pdpt`: clearing the entry that maps a page unmaps the
  pages that the entry covers and no other.
* `ptesPresent_seven`, `ptesPresent_three`: what the mask that `ptes_present` computes says about
  the levels.
-/
namespace Dgos.L2.PageTable

open Nat
open ContigAlloc (pageSize)

/-! ## Indices -/

theorem pteIndex_zero (page : Nat) : pteIndex 0 page = page / 2 ^ 27 :=
  shiftRight_eq_div_pow page 27

theorem pteIndex_one (page : Nat) : pteIndex 1 page = page / 2 ^ 18 :=
  shiftRight_eq_div_pow page 18

theorem pteIndex_two (page : Nat) : pteIndex 2 page = page / 2 ^ 9 :=
  shiftRight_eq_div_pow page 9

theorem pteIndex_three (page : Nat) : pteIndex 3 page = page := rfl

theorem pteAt_set (t : Tables) (level i pte l page : Nat) : pteAt (t.set level i pte) l page =
      if l = level ∧ pteIndex l page = i then pte else pteAt t l page := rfl

theorem pteAt_set_ne (t : Tables) {level i l page : Nat} (pte : Nat)
    (h : l = level → pteIndex l page ≠ i) : pteAt (t.set level i pte) l page = pteAt t l page :=
  if_neg fun hc => h hc.1 hc.2

/-! ## The walk of the processor -/

/-- The entry that maps a page, with its level. -/
structure Leaf where
  level : Nat
  pte : Nat

def leaf (t : Tables) (page : Nat) : Option Leaf :=
  if ! present (pteAt t 0 page) || ! present (pteAt t 1 page) then none
  else if isPageSize (pteAt t 1 page) then some ⟨1, pteAt t 1 page⟩
  else if ! present (pteAt t 2 page) then none
  else if isPageSize (pteAt t 2 page) then some ⟨2, pteAt t 2 page⟩
  else if present (pteAt t 3 page) then some ⟨3, pteAt t 3 page⟩
  else none

/-- The size of the page that an entry of the level maps, as a power of two. -/
def Leaf.shift (e : Leaf) : Nat := 12 + 9 * (3 - e.level)

/-- The pages of 4 KB that the entry of a page covers. -/
def Leaf.pages (e : Leaf) : Nat := 2 ^ (e.shift - 12)

/-- The physical page behind a page that the entry maps. -/
def Leaf.frame (e : Leaf) (page : Nat) : Nat :=
  (e.pte &&& maskNeg 64 pteAddr (2 ^ e.shift)) + page % e.pages * pageSize

/-- The physical address of the page. -/
def translate (t : Tables) (page : Nat) : Option Nat := (leaf t page).map (·.frame page)

def Maps (t : Tables) (page : Nat) : Prop := leaf t page ≠ none

theorem leaf_congr {t t' : Tables} {page : Nat} (h : ∀ l < 4, pteAt t' l page = pteAt t l page) :
    leaf t' page = leaf t page := by
  unfold leaf
  rw [h 0 (by omega), h 1 (by omega), h 2 (by omega), h 3 (by omega)]

theorem leaf_present {t : Tables} {page : Nat} {e : Leaf} (h : leaf t page = some e) :
    present e.pte = true := by
  unfold leaf at h
  split_ifs at h with h1 h2 h3 h4 h5 <;> cases h <;> simp_all

section levels

variable {t : Tables} {page : Nat}

theorem leaf_absent_top (h : present (pteAt t 0 page) = false) : leaf t page = none := by
  simp [leaf, h]

theorem leaf_absent_dirs (h : present (pteAt t 1 page) = false) : leaf t page = none := by
  simp [leaf, h]

theorem leaf_giant (h0 : present (pteAt t 0 page) = true) (h1 : present (pteAt t 1 page) = true)
    (hs : isPageSize (pteAt t 1 page) = true) : leaf t page = some ⟨1, pteAt t 1 page⟩ := by
  simp [leaf, h0, h1, hs]

theorem leaf_absent_dir (hs : isPageSize (pteAt t 1 page) = false)
    (h : present (pteAt t 2 page) = false) : leaf t page = none := by
  simp [leaf, h, hs]

theorem leaf_large (h0 : present (pteAt t 0 page) = true) (h1 : present (pteAt t 1 page) = true)
    (hs : isPageSize (pteAt t 1 page) = false) (h2 : present (pteAt t 2 page) = true)
    (hl : isPageSize (pteAt t 2 page) = true) : leaf t page = some ⟨2, pteAt t 2 page⟩ := by
  simp [leaf, h0, h1, hs, h2, hl]

theorem leaf_small (h : Walkable t page) :
    leaf t page = if present (pteAt t 3 page) then some ⟨3, pteAt t 3 page⟩ else none := by
  simp [leaf, h.top, h.dirs, h.dirsSmall, h.dir, h.dirSmall]

/-! ## The mask of `ptes_present` -/

theorem ptesPresent_low (t : Tables) (page : Nat) : ptesPresent t page &&& 7 =
    if ! present (pteAt t 0 page) then 0
    else if ! present (pteAt t 1 page) then 1
    else if isPageSize (pteAt t 1 page) || ! present (pteAt t 2 page) then 3 else 7 := by
  unfold ptesPresent
  split_ifs <;> rfl

theorem ptesPresent_seven : ptesPresent t page &&& 7 = 7 ↔
    present (pteAt t 0 page) = true ∧ present (pteAt t 1 page) = true ∧
      isPageSize (pteAt t 1 page) = false ∧ present (pteAt t 2 page) = true := by
  rw [ptesPresent_low]
  split_ifs <;> grind

theorem ptesPresent_three : ptesPresent t page &&& 7 = 3 ↔
    present (pteAt t 0 page) = true ∧ present (pteAt t 1 page) = true ∧
      (isPageSize (pteAt t 1 page) = true ∨ present (pteAt t 2 page) = false) := by
  rw [ptesPresent_low]
  split_ifs <;> simp_all

theorem ptesPresent_cases (t : Tables) (page : Nat) :
    ptesPresent t page &&& 7 = 0 ∨ ptesPresent t page &&& 7 = 1 ∨
      ptesPresent t page &&& 7 = 3 ∨ ptesPresent t page &&& 7 = 7 := by
  rw [ptesPresent_low]
  split_ifs <;> simp_all

end levels

theorem ptesPresent_congr {t t' : Tables} {page : Nat}
    (h : ∀ l < 4, pteAt t' l page = pteAt t l page) : ptesPresent t' page = ptesPresent t page := by
  unfold ptesPresent
  rw [h 0 (by omega), h 1 (by omega), h 2 (by omega), h 3 (by omega)]

/-- The levels above the last are the same for two pages of one page table. -/
theorem pteAt_same_table (t : Tables) {p q l : Nat} (h : q / 2 ^ 9 = p / 2 ^ 9) (hl : l < 3) :
    pteAt t l q = pteAt t l p := by
  unfold pteAt
  obtain rfl | rfl | rfl : l = 0 ∨ l = 1 ∨ l = 2 := by omega
  · rw [pteIndex_zero, pteIndex_zero, show q / 2 ^ 27 = p / 2 ^ 27 by omega]
  · rw [pteIndex_one, pteIndex_one, show q / 2 ^ 18 = p / 2 ^ 18 by omega]
  · rw [pteIndex_two, pteIndex_two, h]

/-- The two upper levels are the same for two pages of one page directory. -/
theorem pteAt_same_dir (t : Tables) {p q l : Nat} (h : q / 2 ^ 18 = p / 2 ^ 18) (hl : l < 2) :
    pteAt t l q = pteAt t l p := by
  unfold pteAt
  obtain rfl | rfl : l = 0 ∨ l = 1 := by omega
  · rw [pteIndex_zero, pteIndex_zero, show q / 2 ^ 27 = p / 2 ^ 27 by omega]
  · rw [pteIndex_one, pteIndex_one, h]

/-! ## Bits of an entry -/

theorem pteIsSysmem_iff {pte : Nat} : pteIsSysmem pte = true ↔
    present pte = true ∧ pte.testBit 9 = false ∧ pte.testBit 11 = false ∧
      pte.testBit 54 = false := by
  have hmask : ∀ i, (ptePresent ||| pteExPhysical ||| pteExDevice ||| pteExDemand).testBit i =
      (decide (0 = i) || decide (9 = i) || decide (11 = i) || decide (54 = i)) := fun i => by
    simp only [testBit_or, ptePresent, ptePresentBit, pteExPhysical, pteExDevice, pteExDemand,
      testBit_two_pow]
  unfold pteIsSysmem present ptePresentBit
  rw [decide_eq_true_iff]
  constructor
  · intro h
    have hbit : ∀ i, (pte.testBit i && (decide (0 = i) || decide (9 = i) || decide (11 = i) ||
        decide (54 = i))) = decide (0 = i) := fun i => by
      rw [← hmask, ← testBit_and, h, ptePresent, ptePresentBit, testBit_two_pow]
    exact ⟨by simpa using hbit 0, by simpa using hbit 9, by simpa using hbit 11,
      by simpa using hbit 54⟩
  · rintro ⟨h0, h9, h11, h54⟩
    refine eq_of_testBit_eq fun i => ?_
    rw [testBit_and, hmask, ptePresent, ptePresentBit, testBit_two_pow]
    by_cases e0 : 0 = i
    · subst e0; simp [h0]
    by_cases e9 : 9 = i
    · subst e9; simp [h9]
    by_cases e11 : 11 = i
    · subst e11; simp [h11]
    by_cases e54 : 54 = i
    · subst e54; simp [h54]
    simp [e0, e9, e11, e54]

/-- The test for the release of large pages. -/
theorem not_physical_iff {pte : Nat} (h : present pte = true) :
    pte &&& (pteExPhysical ||| ptePresent) = ptePresent ↔ pte.testBit 9 = false := by
  have hmask : ∀ i, (pteExPhysical ||| ptePresent).testBit i =
      (decide (9 = i) || decide (0 = i)) := fun i => by
    simp only [testBit_or, ptePresent, ptePresentBit, pteExPhysical, testBit_two_pow]
  constructor
  · intro he
    have hbit : (pte &&& (pteExPhysical ||| ptePresent)).testBit 9 = ptePresent.testBit 9 := by
      rw [he]
    rw [testBit_and, hmask, ptePresent, ptePresentBit, testBit_two_pow] at hbit
    simpa using hbit
  · intro h9
    have h0 : pte.testBit 0 = true := h
    refine eq_of_testBit_eq fun i => ?_
    rw [testBit_and, hmask, ptePresent, ptePresentBit, testBit_two_pow]
    by_cases e0 : 0 = i
    · subst e0; simp [h0]
    by_cases e9 : 9 = i
    · subst e9; simp [h9]
    simp [e0, e9]

/-! ## Clearing an entry -/

theorem present_zero : present 0 = false := by decide

section clear

variable {t : Tables} {page : Nat}

theorem leaf_set_pt (hw : Walkable t page) (q : Nat) :
    leaf (t.set 3 page 0) q = if q = page then none else leaf t q := by
  split_ifs with h
  · subst h
    have hzero : pteAt (t.set 3 q 0) 3 q = 0 := if_pos ⟨rfl, rfl⟩
    rw [leaf_small (hw.set q 0), hzero]
    rfl
  · exact leaf_congr fun l _ => pteAt_set_ne t 0 fun hl => by subst hl; exact h

theorem leaf_set_pd (hs : isPageSize (pteAt t 1 page) = false) (q : Nat) :
    leaf (t.set 2 (pteIndex 2 page) 0) q = if q / 2 ^ 9 = page / 2 ^ 9 then none else leaf t q := by
  split_ifs with h
  · refine leaf_absent_dir ?_ ?_
    · rw [pteAt_set_ne t 0 (by omega),
        pteAt_same_dir t (show q / 2 ^ 18 = page / 2 ^ 18 by omega) (by omega)]
      exact hs
    · rw [pteAt_set, if_pos ⟨rfl, by rw [pteIndex_two, pteIndex_two, h]⟩]
      exact present_zero
  · exact leaf_congr fun l _ => pteAt_set_ne t 0 fun hl => by
      subst hl
      rwa [pteIndex_two, pteIndex_two]

theorem leaf_set_pdpt (q : Nat) : leaf (t.set 1 (pteIndex 1 page) 0) q =
      if q / 2 ^ 18 = page / 2 ^ 18 then none else leaf t q := by
  split_ifs with h
  · refine leaf_absent_dirs ?_
    rw [pteAt_set, if_pos ⟨rfl, by rw [pteIndex_one, pteIndex_one, h]⟩]
    exact present_zero
  · exact leaf_congr fun l _ => pteAt_set_ne t 0 fun hl => by
      subst hl
      rwa [pteIndex_one, pteIndex_one]

end clear

end Dgos.L2.PageTable
