import Dgos.L2Memory.Translate

/-!
# The walk of `munmap` (kernel/arch/x86_64/cpu/mmu.cc:2654-2765)

The loop goes over the range in steps of 4 KB, 2 MB or 1 GB. Where a page directory is there but
the page table is not, nothing is cleared and the step is 1 GB, not the 2 MB of the missing table:
what is mapped in the rest of the gigabyte stays mapped, and a range that ends in it is overrun.
When such a step starts in the middle of a 2 MB region it never comes to a boundary of one again,
the mask is not refreshed any more, and the loop looks at page directory pointers only. Which
allocator gets the range back is decided by the address behind the last step, and the release of
large pages tests for physical mappings but not for device mappings.

`Stand` is a round of the loop as it follows from the tables before the call. The proof relates
the loop to the rounds (`munmapLoop_stands`) and reads off what was cleared.
-/
namespace Dgos.L2.PageTable

open List Nat

open ContigAlloc (Err pageSize w64)

/-! ## Rounds -/

/-- A round of the loop at a page; `stale` when the mask is that of an earlier page without a
page table. -/
structure Stand where
  page : Nat
  stale : Bool
  deriving DecidableEq, Repr

open Stand

/-- What a round finds: an entry of 4 KB, 2 MB or 1 GB, a directory without page table that is
passed over, or no directory. -/
inductive Kind where
  | small | large | giant | pass | absent
  deriving DecidableEq, Repr

/-- The pages to the next round. -/
def Kind.stride : Kind → Nat
  | .small | .absent => 1
  | .large => 2 ^ 9
  | .giant | .pass => 2 ^ 18

namespace Stand

/-- The bits of the mask that the loop tests. -/
def mask (t : Tables) (s : Stand) : Nat := if s.stale then 3 else ptesPresent t s.page &&& 7

def kind (t : Tables) (s : Stand) : Kind :=
  if s.mask t = 7 then if isPageSize (pteAt t 2 s.page) then .large else .small
  else if s.mask t = 3 then if isPageSize (pteAt t 1 s.page) then .giant else .pass
  else .absent

def stride (t : Tables) (s : Stand) : Nat := (s.kind t).stride

def next (t : Tables) (s : Stand) : Stand :=
  ⟨s.page + s.stride t, s.mask t = 3 && (s.page + s.stride t) % 2 ^ 9 ≠ 0⟩

/-- The round clears the entry that covers the page. -/
def Clears (t : Tables) (s : Stand) (q : Nat) : Prop :=
  match s.kind t with
  | .small => q = s.page
  | .large => q / 2 ^ 9 = s.page / 2 ^ 9
  | .giant => q / 2 ^ 18 = s.page / 2 ^ 18
  | .pass | .absent => False

/-- The pages that the round releases. -/
def frees (t : Tables) (s : Stand) : List Nat :=
  match s.kind t with
  | .small => if pteIsSysmem (pteAt t 3 s.page) then [pteAt t 3 s.page &&& pteAddr] else []
  | .large => hugeFrames 21 (pteAt t 2 s.page)
  | .giant => hugeFrames 30 (pteAt t 1 s.page)
  | .pass | .absent => []

end Stand

/-- The rounds up to page `en`. -/
def stands (t : Tables) (en : Nat) : Nat → Stand → List Stand
  | 0, _ => []
  | fuel + 1, s => if s.page < en then s :: stands t en fuel (s.next t) else []

/-- The page that the loop stops at. -/
def stopAt (t : Tables) (en : Nat) : Nat → Stand → Nat
  | 0, s => s.page
  | fuel + 1, s => if s.page < en then stopAt t en fuel (s.next t) else s.page

/-- No large page is partly in `[first, en)`. -/
def NotCut (t : Tables) (first en : Nat) : Prop :=
  ∀ q e, first ≤ q → q < en → leaf t q = some e →
    first ≤ q / e.pages * e.pages ∧ q / e.pages * e.pages + e.pages ≤ en

section rounds

variable {t : Tables} {first en : Nat} {s : Stand}

theorem Stand.mask_stale (h : s.stale = true) : s.mask t = 3 := by
  rw [mask, h]
  rfl

theorem Stand.mask_fresh (h : s.stale = false) : s.mask t = ptesPresent t s.page &&& 7 := by
  rw [mask, h]
  rfl

theorem Stand.fresh_of_mask (h : s.mask t ≠ 3) : s.stale = false := by
  cases hs : s.stale with
  | false => rfl
  | true => exact absurd (mask_stale hs) h

theorem Stand.kind_small (h : s.kind t = .small) :
    s.stale = false ∧ s.mask t = 7 ∧ Walkable t s.page := by
  unfold kind at h
  split_ifs at h with h7 hl h3 hg
  have hf := fresh_of_mask (show s.mask t ≠ 3 by omega)
  have hp := h7
  rw [mask_fresh hf] at hp
  obtain ⟨h0, h1, hs, h2⟩ := ptesPresent_seven.1 hp
  exact ⟨hf, h7, h0, h1, hs, h2, Bool.eq_false_iff.2 hl⟩

theorem Stand.kind_large (h : s.kind t = .large) :
    s.stale = false ∧ s.mask t = 7 ∧ isPageSize (pteAt t 1 s.page) = false ∧
      isPageSize (pteAt t 2 s.page) = true ∧ leaf t s.page = some ⟨2, pteAt t 2 s.page⟩ := by
  unfold kind at h
  split_ifs at h with h7 hl h3 hg
  have hf := fresh_of_mask (show s.mask t ≠ 3 by omega)
  have hp := h7
  rw [mask_fresh hf] at hp
  obtain ⟨h0, h1, hs, h2⟩ := ptesPresent_seven.1 hp
  exact ⟨hf, h7, hs, hl, leaf_large h0 h1 hs h2 hl⟩

theorem Stand.kind_giant (h : s.kind t = .giant) :
    s.mask t = 3 ∧ isPageSize (pteAt t 1 s.page) = true := by
  unfold kind at h
  split_ifs at h with h7 hl h3 hg
  exact ⟨h3, hg⟩

theorem Stand.kind_pass (h : s.kind t = .pass) :
    s.mask t = 3 ∧ isPageSize (pteAt t 1 s.page) = false := by
  unfold kind at h
  split_ifs at h with h7 hl h3 hg
  exact ⟨h3, Bool.eq_false_iff.2 hg⟩

theorem Stand.kind_absent (h : s.kind t = .absent) :
    s.stale = false ∧ s.mask t ≠ 7 ∧ s.mask t ≠ 3 ∧ s.mask t &&& 3 ≠ 3 ∧ leaf t s.page = none := by
  unfold kind at h
  split_ifs at h with h7 hl h3 hg
  have hf := fresh_of_mask h3
  refine ⟨hf, h7, h3, ?_⟩
  rw [mask_fresh hf] at h7 h3 ⊢
  have habsent : present (pteAt t 0 s.page) = false ∨ present (pteAt t 1 s.page) = false := by
    rw [ptesPresent_seven] at h7
    rw [ptesPresent_three] at h3
    cases h0 : present (pteAt t 0 s.page) <;>
      simp_all
  refine ⟨?_, habsent.elim leaf_absent_top leaf_absent_dirs⟩
  rcases ptesPresent_cases t s.page with hp | hp | hp | hp
  · rw [hp]; decide
  · rw [hp]; decide
  · exact absurd hp h3
  · exact absurd hp h7

theorem Stand.stride_pos (t : Tables) (s : Stand) : 0 < s.stride t := by
  unfold stride
  cases s.kind t <;> decide

theorem ptesPresent_same_table (t : Tables) {p q : Nat} (h : q / 2 ^ 9 = p / 2 ^ 9) :
    ptesPresent t q &&& 7 = ptesPresent t p &&& 7 := by
  rw [ptesPresent_low, ptesPresent_low, pteAt_same_table t h (by omega),
    pteAt_same_table t h (by omega), pteAt_same_table t h (by omega)]

/-- The loop comes to a page of 2 MB at its start, unless the range starts inside of it. -/
structure Stand.Ok (t : Tables) (first : Nat) (s : Stand) : Prop where
  from_first : first ≤ s.page
  at_start : s.stale = true ∨ s.page % 2 ^ 9 = 0 ∨ s.page = first ∨ s.kind t ≠ .large

theorem Stand.Ok.start (t : Tables) (first : Nat) : Ok t first ⟨first, false⟩ :=
  ⟨le_rfl, .inr (.inr (.inl rfl))⟩

theorem Stand.next_stale (h3 : s.mask t = 3) (ha : (s.page + s.stride t) % 2 ^ 9 ≠ 0) :
    (s.next t).stale = true := by
  show (decide (s.mask t = 3) && decide ((s.page + s.stride t) % 2 ^ 9 ≠ 0)) = true
  rw [decide_eq_true h3, decide_eq_true ha]
  rfl

theorem Stand.next_fresh (h3 : s.mask t ≠ 3) : (s.next t).stale = false := by
  show (decide (s.mask t = 3) && decide ((s.page + s.stride t) % 2 ^ 9 ≠ 0)) = false
  rw [decide_eq_false h3]
  rfl

/-- Within a page table the next round finds the same. -/
theorem Stand.kind_next (hf : s.stale = false) (h3 : s.mask t ≠ 3) (hstride : s.stride t = 1)
    (ha : (s.page + 1) % 2 ^ 9 ≠ 0) : (s.next t).kind t = s.kind t := by
  have hsame : (s.page + 1) / 2 ^ 9 = s.page / 2 ^ 9 := by omega
  have hpage : (s.next t).page = s.page + 1 := by rw [← hstride]; rfl
  unfold kind
  rw [mask_fresh (next_fresh h3), mask_fresh hf, hpage, ptesPresent_same_table t hsame,
    pteAt_same_table t hsame (by omega), pteAt_same_table t hsame (by omega)]

section Ok

variable (h : s.Ok t first) (hcut : NotCut t first en) (hen : s.page < en)
include h hcut hen

theorem Stand.Ok.aligned (hk : s.kind t = .large) : s.page % 2 ^ 9 = 0 := by
  obtain ⟨hf, -, -, -, hleaf⟩ := kind_large hk
  rcases h.at_start with hstale | ha | hfirst | hn
  · rw [hf] at hstale
    cases hstale
  · exact ha
  · have hc := (hcut s.page _ h.from_first hen hleaf).1
    rw [show Leaf.pages ⟨2, pteAt t 2 s.page⟩ = 2 ^ 9 from rfl] at hc
    omega
  · exact absurd hk hn

/-- Unless it leaps, a round goes on by one page, or by the whole page of 2 MB. -/
theorem Stand.Ok.stride_cases (h3 : s.mask t ≠ 3) :
    s.stride t = 1 ∨ s.stride t = 2 ^ 9 ∧ s.page % 2 ^ 9 = 0 := by
  cases hk : s.kind t with
  | small | absent => exact .inl (by rw [stride, hk, Kind.stride])
  | large => exact .inr ⟨by rw [stride, hk, Kind.stride], h.aligned hcut hen hk⟩
  | giant => exact absurd (kind_giant hk).1 h3
  | pass => exact absurd (kind_pass hk).1 h3

theorem Stand.Ok.next : (s.next t).Ok t first := by
  have hfirst := h.from_first
  refine ⟨show first ≤ s.page + s.stride t by omega, ?_⟩
  by_cases ha : (s.page + s.stride t) % 2 ^ 9 = 0
  · exact .inr (.inl ha)
  by_cases h3 : s.mask t = 3
  · exact .inl (next_stale h3 ha)
  rcases h.stride_cases hcut hen h3 with hone | ⟨hpages, haligned⟩
  · refine .inr (.inr (.inr fun hk => ?_))
    rw [kind_next (fresh_of_mask h3) h3 hone (by rwa [hone] at ha)] at hk
    rw [stride, hk, Kind.stride] at hone
    cases hone
  · omega

end Ok

end rounds

/-! ## The loop follows the rounds -/

/-- The loop is at the round: from its page on the tables are still those before the call. -/
structure Follows (t : Tables) (w : Walk) (s : Stand) : Prop where
  page : w.page = s.page
  mask : w.presentMask &&& 7 = s.mask t
  same : ∀ q ≥ s.page, ∀ l < 4, pteAt w.tables l q = pteAt t l q

/-- The tables whose entries a round reads are there.
mirrors mmu.cc:2678-2710 -/
def Walk.Reads (w : Walk) : Prop :=
  (w.presentMask &&& 7 = 7 → present (pteAt w.tables 0 w.page) = true ∧
    present (pteAt w.tables 1 w.page) = true ∧ isPageSize (pteAt w.tables 1 w.page) = false ∧
    present (pteAt w.tables 2 w.page) = true) ∧
  (w.presentMask &&& 3 = 3 → present (pteAt w.tables 0 w.page) = true)

/-- Every round of the loop reads tables that are there. -/
def ReadsTables (size : Nat) : Nat → Walk → Prop
  | 0, _ => True
  | fuel + 1, w => w.ofs < size → w.Reads ∧ ReadsTables size fuel (unmapStep w)

theorem and_three (m : Nat) : m &&& 3 = (m &&& 7) &&& 3 := by
  rw [Nat.and_assoc]
  rfl

section loop

variable {t : Tables} {first en : Nat} {w : Walk} {s : Stand}

theorem Follows.reads (h : Follows t w s) :
    w.Reads ↔ (s.stale = true → present (pteAt t 0 s.page) = true) := by
  have hsame := h.same s.page le_rfl
  unfold Walk.Reads
  rw [h.page, and_three, h.mask, hsame 0 (by omega), hsame 1 (by omega), hsame 2 (by omega)]
  cases hs : s.stale with
  | true => simp [mask_stale hs]
  | false =>
    rw [mask_fresh hs]
    refine ⟨fun _ hc => absurd hc Bool.false_ne_true, fun _ => ⟨ptesPresent_seven.1, fun h3 => ?_⟩⟩
    rcases ptesPresent_cases t s.page with hp | hp | hp | hp
    · rw [hp] at h3
      cases h3
    · rw [hp] at h3
      cases h3
    · exact (ptesPresent_three.1 hp).1
    · exact (ptesPresent_seven.1 hp).1

/-- What a round does to the tables: one entry is cleared, or none. -/
theorem Follows.entry (h : Follows t w s) :
    ∃ tables, unmapEntry w = (s.stride t * pageSize, tables, s.frees t ++ w.freed) ∧
      (∀ q ≥ s.page + s.stride t, ∀ l < 4, pteAt tables l q = pteAt w.tables l q) ∧
      (∀ q, s.Clears t q → leaf tables q = none) ∧
      (∀ q, ¬ s.Clears t q → leaf tables q = leaf w.tables q) := by
  have hsame := h.same s.page le_rfl
  unfold unmapEntry stride Clears frees
  rw [and_three, h.mask, h.page, hsame 1 (by omega), hsame 2 (by omega), hsame 3 (by omega)]
  cases hk : s.kind t with
  | small =>
    obtain ⟨-, hm, hw⟩ := kind_small hk
    have hw' : Walkable w.tables s.page := hw.congr fun l hl => hsame l (by omega)
    rw [if_pos hm, hw.dirSmall]
    refine ⟨w.tables.set 3 s.page 0, ?_, fun q hq l _ => pteAt_set_ne _ 0 fun hl => ?_,
      fun q hq => ?_, fun q hq => ?_⟩
    · by_cases hm : pteIsSysmem (pteAt t 3 s.page) = true <;> simp [hm, Kind.stride]
    · subst hl
      rw [pteIndex_three]
      change q ≥ s.page + 1 at hq
      omega
    · rw [leaf_set_pt hw', if_pos hq]
    · rw [leaf_set_pt hw', if_neg hq]
  | large =>
    obtain ⟨-, hm, hs, hl, -⟩ := kind_large hk
    rw [← hsame 1 (by omega)] at hs
    rw [if_pos hm, if_pos hl]
    refine ⟨_, rfl, fun q hq l _ => pteAt_set_ne _ 0 fun hl => ?_, fun q hq => ?_, fun q hq => ?_⟩
    · subst hl
      rw [pteIndex_two, pteIndex_two]
      change q ≥ s.page + 2 ^ 9 at hq
      omega
    · rw [leaf_set_pd hs, if_pos hq]
    · rw [leaf_set_pd hs, if_neg hq]
  | giant =>
    obtain ⟨hm, hg⟩ := kind_giant hk
    rw [hm, if_pos hg]
    refine ⟨_, rfl, fun q hq l _ => pteAt_set_ne _ 0 fun hl => ?_, fun q hq => ?_, fun q hq => ?_⟩
    · subst hl
      rw [pteIndex_one, pteIndex_one]
      change q ≥ s.page + 2 ^ 18 at hq
      omega
    · rw [leaf_set_pdpt, if_pos hq]
    · rw [leaf_set_pdpt, if_neg hq]
  | pass =>
    obtain ⟨hm, hg⟩ := kind_pass hk
    rw [hm, hg]
    exact ⟨_, rfl, fun _ _ _ _ => rfl, fun _ hq => hq.elim, fun _ _ => rfl⟩
  | absent =>
    obtain ⟨-, hm, -, hm3, -⟩ := kind_absent hk
    rw [if_neg hm, if_neg hm3]
    exact ⟨_, rfl, fun _ _ _ _ => rfl, fun _ hq => hq.elim, fun _ _ => rfl⟩

theorem and_511 (m : Nat) : m &&& 0x1ff = m % 2 ^ 9 := and_two_pow_sub_one_eq_mod m 9

theorem Follows.step (h : Follows t w s) (hok : s.Ok t first) (hcut : NotCut t first en)
    (hen : s.page < en) : Follows t (unmapStep w) (s.next t) ∧
      (unmapStep w).a = (w.a + s.stride t * pageSize) % w64 ∧
      (unmapStep w).ofs = (w.ofs + s.stride t * pageSize) % w64 ∧
      (unmapStep w).freed = s.frees t ++ w.freed ∧
      (∀ q, s.Clears t q → leaf (unmapStep w).tables q = none) ∧
      (∀ q, ¬ s.Clears t q → leaf (unmapStep w).tables q = leaf w.tables q) := by
  obtain ⟨tables, he, hkeep, hclear, hrest⟩ := h.entry
  have hsame : ∀ q ≥ (s.next t).page, ∀ l < 4, pteAt tables l q = pteAt t l q := fun q hq l hl =>
    (hkeep q hq l hl).trans
      (h.same q (le_trans (le_add_right _ _) (show s.page + s.stride t ≤ q from hq)) l hl)
  have hpage : w.page + (s.stride t * pageSize) >>> 12 = (s.next t).page := by
    rw [h.page, shiftRight_eq_div_pow]
    show s.page + s.stride t * 4096 / 2 ^ 12 = s.page + s.stride t
    omega
  unfold unmapStep
  rw [he]
  simp only [hpage, and_511, true_and]
  refine ⟨⟨rfl, ?_, hsame⟩, hclear, hrest⟩
  by_cases ha : (s.next t).page % 2 ^ 9 = 0
  · have hf : (s.next t).stale = false := by
      show (decide (s.mask t = 3) && decide ((s.next t).page % 2 ^ 9 ≠ 0)) = false
      rw [decide_eq_false (not_not_intro ha), Bool.and_false]
    rw [if_pos ha, mask_fresh hf, ptesPresent_congr (hsame _ le_rfl)]
  · rw [if_neg ha, h.mask]
    by_cases h3 : s.mask t = 3
    · rw [h3, mask_stale (next_stale h3 ha)]
    have hf := fresh_of_mask h3
    -- one page further in the same page table, with the same mask
    have hstride : s.stride t = 1 :=
      (hok.stride_cases hcut hen h3).resolve_right fun ⟨h9, h0⟩ => ha (by
        show (s.page + s.stride t) % 2 ^ 9 = 0
        omega)
    have hp : (s.next t).page = s.page + 1 := by rw [← hstride]; rfl
    rw [mask_fresh hf, mask_fresh (next_fresh h3)]
    exact (ptesPresent_same_table t (by omega)).symm

/-- The loop ends, with what its rounds do. -/
theorem munmapLoop_stands (addr fuel : Nat) (h : Follows t w s) (hok : s.Ok t first)
    (hcut : NotCut t first en) (hen : en ≤ 2 ^ 36) (hbound : s.page ≤ en + 2 ^ 18)
    (hofs : w.ofs = (s.page - first) * pageSize)
    (ha : w.a = (addr + (s.page - first) * pageSize) % w64) (hfuel : en - s.page < fuel) :
    ∃ w', munmapLoop ((en - first) * pageSize) fuel w = .ok w' ∧
      w'.a = (addr + (stopAt t en fuel s - first) * pageSize) % w64 ∧
      w'.freed = (stands t en fuel s).reverse.flatMap (·.frees t) ++ w.freed ∧
      (∀ q, (∃ r ∈ stands t en fuel s, r.Clears t q) → leaf w'.tables q = none) ∧
      (∀ q, (¬ ∃ r ∈ stands t en fuel s, r.Clears t q) → leaf w'.tables q = leaf w.tables q) ∧
      (ReadsTables ((en - first) * pageSize) fuel w ↔
        ∀ r ∈ stands t en fuel s, r.stale = true → present (pteAt t 0 r.page) = true) := by
  induction fuel generalizing w s with
  | zero => omega
  | succ fuel ih =>
    have hfirst := hok.from_first
    have hlt : w.ofs < (en - first) * pageSize ↔ s.page < en := by
      rw [hofs]
      unfold pageSize
      omega
    unfold munmapLoop stands stopAt ReadsTables
    by_cases hpage : s.page < en
    · obtain ⟨hnext, ha', hofs', hfreed, hclear, hrest⟩ := h.step hok hcut hpage
      have hpos := s.stride_pos t
      have hle : s.stride t ≤ 2 ^ 18 := by unfold Stand.stride; cases s.kind t <;> decide
      have hp : (s.next t).page = s.page + s.stride t := rfl
      have hmul : (s.page + s.stride t - first) * pageSize =
          (s.page - first) * pageSize + s.stride t * pageSize := by
        rw [← add_mul]
        congr 1
        omega
      obtain ⟨w', hw, ha'', hf, hc, hr, hread⟩ := ih hnext (hok.next hcut hpage) (by omega) (by
          rw [hofs', hofs, hp]
          unfold pageSize w64
          omega) (by rw [ha', ha, hp, hmul, mod_add_mod, add_assoc]) (by omega)
      rw [if_pos (hlt.2 hpage), if_pos hpage, if_pos hpage]
      refine ⟨w', hw, ha'', ?_, fun q hq => ?_, fun q hq => ?_, ?_⟩
      · rw [hf, hfreed, reverse_cons, flatMap_append, flatMap_singleton, append_assoc]
      · by_cases hlater : ∃ r ∈ stands t en fuel (s.next t), r.Clears t q
        · exact hc q hlater
        · rw [hr q hlater, hclear q (((exists_mem_cons_iff _ _ _).1 hq).resolve_right hlater)]
      · rw [exists_mem_cons_iff, not_or] at hq
        rw [hr q hq.2, hrest q hq.1]
      · rw [hread, h.reads, forall_mem_cons]
        exact ⟨fun hh => hh (hlt.2 hpage), fun hh _ => hh⟩
    · rw [if_neg (mt hlt.1 hpage), if_neg hpage, if_neg hpage]
      refine ⟨w, rfl, ha, rfl, fun q hq => by simp at hq, fun _ _ => rfl, ?_⟩
      exact ⟨fun _ => forall_mem_nil _, fun _ hc => absurd (hlt.1 hc) hpage⟩

end loop

end Dgos.L2.PageTable
