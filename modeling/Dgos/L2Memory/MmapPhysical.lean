import Dgos.L2Memory.Mmap
import Dgos.L2Memory.TableCreation

/-!
# Mapping a physical range

With `MAP_PHYSICAL`, `mmap` maps a range of physical addresses and returns the address to reach
them at. The runs of 1 GB, 2 MB and 4 KB pages map page after page in order (`mapPhysical_ok`). Two
things go wrong around them: with `MAP_HUGETLB` the offset into the first page is computed again
from the rounded address, so it is lost; and before the memory map is handed over every page is
mapped to the physical page behind its own.

Results:
* `phys_right_iff`: the returned address reaches the physical range exactly if the call is not an
  early one, and `MAP_HUGETLB` is not combined with an address inside of a page.
* `phys_offset_lost`: a huge mapping of an address inside of a page.
-/
namespace Dgos.L2.PageTable

open Option ContigAlloc Nat Leaf
open Nat (dvd_of_mod_eq_zero mod_eq_of_lt succ_mul testBit_or zero_and)

open ContigAlloc (Alloc Err assert pageSize roundUp w64 oneGB twoMB fourK hugeAlignment hugeLinear
  allocLinear)

/-! ## Flags -/

theorem zeroIfFalse_and {b : Bool} {bits m : Nat} (h : bits &&& m = 0) :
    zeroIfFalse b bits &&& m = 0 := by
  unfold zeroIfFalse
  split
  · exact h
  · exact zero_and m

theorem or_and_eq_zero {a b m : Nat} (ha : a &&& m = 0) (hb : b &&& m = 0) :
    (a ||| b) &&& m = 0 := by
  rw [Nat.and_or_distrib_right, ha, hb]
  rfl

theorem pageFlags_addr (cpu : Cpu) (c : MapCall) : pageFlags cpu c &&& pteAddr = 0 := by
  have hnx : pteNx &&& cpu.nxMask &&& pteAddr = 0 := by
    rw [Nat.and_right_comm, show pteNx &&& pteAddr = 0 by decide, zero_and]
  have hcache : cacheFlags cpu c.flags &&& pteAddr = 0 := by
    unfold cacheFlags
    split
    · exact or_and_eq_zero (zeroIfFalse_and (by decide)) (zeroIfFalse_and (by decide))
    · split <;> decide
  repeat' apply or_and_eq_zero
  all_goals first | exact hcache | exact zeroIfFalse_and hnx | exact zeroIfFalse_and (by decide)

theorem testBit_or_left {a i : Nat} (b : Nat) (h : a.testBit i = true) :
    (a ||| b).testBit i = true := by
  rw [testBit_or, h, Bool.true_or]

theorem testBit_or_right {b i : Nat} (a : Nat) (h : b.testBit i = true) :
    (a ||| b).testBit i = true := by
  rw [testBit_or, h, Bool.or_true]

theorem present_pageFlags (cpu : Cpu) {c : MapCall} (h : c.flags.physical = true) :
    present (pageFlags cpu c) = true := by
  repeat' apply testBit_or_left
  rw [h]
  decide

/-- The flags of an entry of the level: present, a large page above the last level, and no bits of
the address. -/
structure EntryFlags (level flags : Nat) : Prop where
  present : present flags = true
  large : level < 3 → isPageSize flags = true
  addr : flags &&& maskNeg 64 pteAddr (2 ^ (12 + 9 * (3 - level))) = 0

theorem and_maskNeg_pteAddr {x : Nat} (k : Nat) (h : x &&& pteAddr = 0) :
    x &&& maskNeg 64 pteAddr (2 ^ k) = 0 := by
  unfold maskNeg
  rw [← Nat.and_assoc, h, Nat.zero_and]

theorem entryFlags_small {flags : Nat} (hp : PageTable.present flags = true)
    (ha : flags &&& pteAddr = 0) : EntryFlags 3 flags :=
  ⟨hp, fun h => absurd h (by decide), and_maskNeg_pteAddr _ ha⟩

theorem entryFlags_huge {flags level : Nat} (hp : PageTable.present flags = true)
    (ha : flags &&& pteAddr = 0) (h : level = 1 ∨ level = 2) :
    EntryFlags level (hugeFlags flags) where
  present := by
    refine testBit_or_right _ ?_
    split
    · refine testBit_or_left _ ?_
      have hbit : (w64 - 1 - ptePtePat).testBit 0 = true := by decide
      rw [without, testBit_and, ptePresentBit, hbit, Bool.and_true]
      exact hp
    · exact hp
  large _ := testBit_or_left _ (by decide)
  addr := by
    have hw : without flags ptePtePat &&& pteAddr = 0 := by
      rw [without, Nat.and_right_comm, ha, zero_and]
    refine or_and_eq_zero (by rcases h with rfl | rfl <;> decide) ?_
    split
    · exact or_and_eq_zero (and_maskNeg_pteAddr _ hw) (by rcases h with rfl | rfl <;> decide)
    · exact and_maskNeg_pteAddr _ ha

theorem frame_or {level paddr flags : Nat} (hf : EntryFlags level flags)
    (halign : paddr % 2 ^ (12 + 9 * (3 - level)) = 0) (hlt : paddr < 2 ^ 52) (page : Nat) :
    frame ⟨level, paddr ||| flags⟩ page = paddr + page % 2 ^ (9 * (3 - level)) * pageSize := by
  have hpage : IsPage paddr := by
    refine isPage_iff.2 ⟨?_, hlt⟩
    rw [pow_add] at halign
    exact mod_eq_zero_of_dvd (dvd_trans (dvd_mul_right _ _) (dvd_of_mod_eq_zero halign))
  have hbase : paddr &&& maskNeg 64 pteAddr (2 ^ (12 + 9 * (3 - level))) = paddr := by
    have hle : 12 + 9 * (3 - level) ≤ 64 := by omega
    have hm : paddr < 2 ^ 64 := lt_trans hlt (by decide)
    unfold maskNeg
    rw [← Nat.and_assoc, hpage]
    refine (maskNeg_two_pow hm hle).trans ?_
    exact Nat.div_mul_cancel (dvd_of_mod_eq_zero halign)
  unfold frame pages shift
  rw [Nat.and_or_distrib_right, hf.addr, Nat.or_zero, hbase, Nat.add_sub_cancel_left]

/-! ## A run of entries -/

theorem mod_w64 {x : Nat} (h : x ≤ 2 ^ 52) : x % w64 = x :=
  mod_eq_of_lt (lt_of_le_of_lt h (by decide))

theorem two_pow_shift {level a : Nat} (ha : a = 2 ^ (9 * (3 - level))) :
    0 < a ∧ 2 ^ (12 + 9 * (3 - level)) = pageSize * a := by
  rw [pow_add, ha]
  exact ⟨Nat.two_pow_pos _, rfl⟩

theorem physEntries_spec (level shift flags count i paddr : Nat) (s : Mm)
    (hlt : paddr + count * 2 ^ shift ≤ 2 ^ 52) :
    (physEntries level shift flags count i paddr s).tables = (fun l j =>
      if l = level ∧ i ≤ j ∧ j < i + count then (paddr + (j - i) * 2 ^ shift) ||| flags
      else s.tables l j) ∧
    (physEntries level shift flags count i paddr s).frames = s.frames ∧
    (physEntries level shift flags count i paddr s).zerosPage = s.zerosPage := by
  induction count generalizing i paddr s with
  | zero =>
    refine ⟨?_, rfl, rfl⟩
    funext l j
    rw [if_neg (by omega)]
    rfl
  | succ count ih =>
    rw [succ_mul] at hlt
    obtain ⟨ht, hframes, hzeros⟩ := ih (i + 1) (paddr + 2 ^ shift)
      (s.exchange level i (paddr ||| flags)) (by omega)
    rw [physEntries, mod_w64 (by omega)]
    refine ⟨?_, hframes, hzeros⟩
    rw [ht]
    funext l j
    simp only [Mm.exchange, Tables.set]
    by_cases hj : l = level ∧ j = i
    · rw [if_neg (by omega), if_pos hj, if_pos (by omega), hj.2, Nat.sub_self, zero_mul, add_zero]
    · rw [if_neg hj]
      refine ite_congr (propext (by omega)) (fun h => ?_) fun _ => rfl
      rw [show j - i = j - (i + 1) + 1 by omega, succ_mul, add_right_comm, add_assoc]

theorem pteIndex_div (level page : Nat) : pteIndex level page = page / 2 ^ (9 * (3 - level)) :=
  shiftRight_eq_div_pow _ _

/-- A run maps its pages in order; pages before it are mapped as before, and pages behind it are
not covered by a large page if they were not. -/
structure RunOk (s s' : Mm) (first pages paddr : Nat) : Prop where
  good : GoodFrames s'.toSt
  used : s.frames.length ≤ s'.frames.length + 3 * pages
  mapped : ∀ j < pages, translate s'.tables (first + j) = some (paddr + j * pageSize)
  before : ∀ q e, q < first → leaf s.tables q = some e → leaf s'.tables q = some e
  behind : ∀ q, first + pages ≤ q → HugeMapped s'.tables q → HugeMapped s.tables q

section run

variable {s : Mm} {level flags paddr count first a : Nat}

theorem run_ok (vaddr : Nat) (ha : a = 2 ^ (9 * (3 - level))) (h1 : 1 ≤ level) (h3 : level ≤ 3)
    (hcount : 0 < count) (hf : EntryFlags level flags) (hpa : paddr % (pageSize * a) = 0)
    (hplt : paddr + count * (pageSize * a) ≤ 2 ^ 52) (hfirst : ptesFromAddr vaddr = first)
    (halign : first % a = 0)
    (hend : ptesFromAddr ((vaddr + count * (pageSize * a) + w64 - 1) % w64) = first + count * a - 1)
    (hg : GoodFrames s.toSt) (hroom : 3 * (count * a) ≤ s.frames.length)
    (hfree : ∀ q, first ≤ q → q < first + count * a → ¬ HugeMapped s.tables q) :
    ∃ s1, s.createTables vaddr (count * (pageSize * a)) level = .ok s1 ∧
      RunOk s (physEntries level (12 + 9 * (3 - level)) flags count (pteIndex level first) paddr s1)
        first (count * a) paddr := by
  obtain ⟨hapos, hshift⟩ := two_pow_shift ha
  have hpos : 0 < count * a := mul_pos hcount hapos
  have hsize : first + count * a - 1 - first + 1 = count * a := by omega
  have hneed : level * (count * a) ≤ 3 * (count * a) := mul_le_mul_right _ h3
  obtain ⟨st, hst, hgrown, hkeeps, hreaches⟩ := createPagetables_ok
    (count * (pageSize * a)) hg hfirst hend (by omega) h3 (by rw [hsize]; omega)
    fun q hq1 hq2 => hfree q hq1 (by omega)
  rw [hsize] at hgrown
  refine ⟨{ s with toSt := st }, by rw [Mm.createTables, ok_bind hst]; rfl, ?_⟩
  obtain ⟨ht, hframes, hzeros⟩ := physEntries_spec level (12 + 9 * (3 - level)) flags count
    (pteIndex level first) paddr { s with toSt := st } (by rw [hshift]; exact hplt)
  generalize physEntries level (12 + 9 * (3 - level)) flags count (pteIndex level first) paddr
    { s with toSt := st } = s' at *
  have hindex : ∀ q, pteIndex level q = q / a := fun q => by rw [pteIndex_div, ha]
  -- the entries of a page outside of the run
  have hout : ∀ q, (q < first ∨ first + count * a ≤ q) → ∀ l,
      pteAt s'.tables l q = pteAt st.tables l q := by
    intro q hq l
    rw [ht]
    refine if_neg ?_
    rintro ⟨rfl, hlo, hhi⟩
    rw [hindex, hindex] at hlo hhi
    obtain ⟨f, rfl⟩ := dvd_of_mod_eq_zero halign
    rw [Nat.mul_div_cancel_left _ hapos] at hlo hhi
    rcases hq with hq | hq
    · exact absurd (Nat.div_lt_of_lt_mul hq) (by omega)
    · rw [mul_comm count a, ← mul_add, mul_comm] at hq
      exact absurd ((le_div_iff_mul_le hapos).2 hq) (by omega)
  refine ⟨(hg.grown hgrown).of_frames hzeros (by simp [hframes]), ?_, fun j hj => ?_,
    fun q e hq he => ?_, fun q hq hh => ?_⟩
  · rw [hframes]
    have : s.frames.length ≤ st.frames.length + level * (count * a) := hgrown.used
    show s.frames.length ≤ st.frames.length + _
    omega
  · have hr := hreaches (first + j) (by omega) (by omega)
    have hj' : (first + j) / a = first / a + j / a := by
      obtain ⟨f, rfl⟩ := dvd_of_mod_eq_zero halign
      rw [mul_add_div hapos, Nat.mul_div_cancel_left _ hapos]
    have hjlt : j / a < count := Nat.div_lt_of_lt_mul (by rw [mul_comm]; exact hj)
    have hentry : pteAt s'.tables level (first + j) =
        (paddr + j / a * (pageSize * a)) ||| flags := by
      unfold pteAt
      rw [ht, hindex, hindex, hj', hshift]
      simp only [true_and]
      rw [if_pos ⟨Nat.le_add_right _ _, Nat.add_lt_add_left hjlt _⟩, Nat.add_sub_cancel_left]
    have hup : ∀ l < level, pteAt s'.tables l (first + j) = pteAt st.tables l (first + j) :=
      fun l hl => by
      rw [ht]
      exact if_neg (by omega)
    have hreach : Reaches s'.tables level (first + j) :=
      ⟨fun l hl => by rw [hup l hl]; exact hr.there l hl,
        fun l hl h0 => by rw [hup l hl]; exact hr.small l hl h0⟩
    have hleaf := hreach.leaf h1 h3 (by rw [hentry]; exact testBit_or_right _ hf.present)
      fun hl => by rw [hentry]; exact testBit_or_right _ (hf.large hl)
    have hbound : j / a * (pageSize * a) + pageSize * a ≤ count * (pageSize * a) := by
      rw [← succ_mul]
      exact mul_le_mul_right _ hjlt
    have hdiv : j / a * (pageSize * a) = j / a * a * pageSize := by
      rw [mul_comm pageSize a, mul_assoc]
    have hapage : 0 < pageSize * a := mul_pos (by decide) hapos
    have hpaddr : (paddr + j / a * (pageSize * a)) % (pageSize * a) = 0 := by
      rw [add_mul_mod_self_right, hpa]
    rw [translate, hleaf, map_some, hentry,
      frame_or hf (by rw [hshift]; exact hpaddr) (by omega), ← ha, hdiv, add_assoc, ← add_mul]
    have hmod : (first + j) % a = j % a := by
      rw [add_mod, halign, zero_add, mod_mod]
    rw [hmod, mul_comm (j / a) a, div_add_mod]
  · exact leaf_of_path (hkeeps.leaf q e he) fun l _ => hout q (.inl hq) l
  · exact hkeeps.huge q (hh.congr fun l _ => (hout q (.inr hq) l).symm)

end run

/-! ## The loop -/

/-- A range of `n` pages in one half of the address space. -/
def InHalf (v n : Nat) : Prop :=
  v + n * pageSize ≤ lowEnd ∨ w64 - lowEnd ≤ v ∧ v + n * pageSize ≤ w64

theorem ptesFromAddr_last {v n : Nat} (hv : v % pageSize = 0) (hn : 0 < n) (hhalf : InHalf v n) :
    ptesFromAddr ((v + n * pageSize + w64 - 1) % w64) = ptesFromAddr v + n - 1 := by
  rw [ptesFromAddr_eq, ptesFromAddr_eq]
  unfold InHalf lowEnd at hhalf
  unfold pageSize w64 at *
  omega

theorem ptesFromAddr_next {v n m : Nat} (hv : v % pageSize = 0) (hm : m < n)
    (hhalf : InHalf v n) : ptesFromAddr (v + m * pageSize) = ptesFromAddr v + m ∧
      (v + m * pageSize) % w64 = v + m * pageSize := by
  rw [ptesFromAddr_eq, ptesFromAddr_eq]
  unfold InHalf lowEnd at hhalf
  unfold pageSize w64 at *
  omega

/-- The next run: large pages only where the physical address is aligned and the length covers
one. -/
theorem physRun_cases (huge : Bool) {flags paddr : Nat} (len : Nat) (hp : present flags = true)
    (ha : flags &&& pteAddr = 0) (hlt : paddr < 2 ^ 64) :
    ∃ level entryFlags, physRun huge flags paddr len = (level, 12 + 9 * (3 - level), entryFlags) ∧
      EntryFlags level entryFlags ∧ (level = 3 ∨ (level = 1 ∨ level = 2) ∧ huge = true ∧
        paddr % 2 ^ (12 + 9 * (3 - level)) = 0 ∧ 2 ^ (12 + 9 * (3 - level)) ≤ len) := by
  unfold physRun
  split
  · rename_i h
    refine ⟨1, _, rfl, entryFlags_huge hp ha (.inl rfl), .inr ⟨.inl rfl, h.1, ?_, h.2.2⟩⟩
    exact (eq_maskNeg_iff hlt (by decide)).1 h.2.1
  · split_ifs with h
    · refine ⟨2, _, rfl, entryFlags_huge hp ha (.inr rfl), .inr ⟨.inr rfl, h.1, ?_, h.2.2⟩⟩
      exact (eq_maskNeg_iff hlt (by decide)).1 h.2.1
    · exact ⟨3, _, rfl, entryFlags_small hp ha, .inl rfl⟩

/-- The address space of a huge mapping is aligned like the physical range, as far as that
matters for its length. -/
def Aligned (huge : Bool) (paddr vaddr len : Nat) : Prop :=
  huge = true → (paddr % 2 ^ 21 = 0 → 2 ^ 21 ≤ len → vaddr % 2 ^ 21 = 0) ∧
    (paddr % 2 ^ 30 = 0 → 2 ^ 30 ≤ len → vaddr % 2 ^ 30 = 0)

section loop

variable (huge : Bool) {flags : Nat} (hp : present flags = true) (ha : flags &&& pteAddr = 0)
include hp ha

/-- The loop maps the pages of the range in order. -/
theorem mapPhysical_ok {fuel n : Nat} (paddr vaddr : Nat) {s : Mm} (hn : 0 < n) (hfuel : n < fuel)
    (hpa : paddr % pageSize = 0) (hplt : paddr + n * pageSize ≤ 2 ^ 52) (hva : vaddr % pageSize = 0)
    (hhalf : InHalf vaddr n) (halign : Aligned huge paddr vaddr (n * pageSize))
    (hg : GoodFrames s.toSt) (hroom : 3 * n ≤ s.frames.length)
    (hfree : ∀ q, ptesFromAddr vaddr ≤ q → q < ptesFromAddr vaddr + n → ¬ HugeMapped s.tables q) :
    ∃ s', mapPhysical huge flags fuel paddr vaddr (n * pageSize) s = .ok s' ∧
      (∀ j < n, translate s'.tables (ptesFromAddr vaddr + j) = some (paddr + j * pageSize)) ∧
      (∀ q e, q < ptesFromAddr vaddr → leaf s.tables q = some e → leaf s'.tables q = some e) := by
  induction fuel generalizing n paddr vaddr s with
  | zero => omega
  | succ fuel ih =>
    have hplt64 : paddr < 2 ^ 64 := lt_of_lt_of_le (by unfold pageSize at *; omega)
      (show (2 : Nat) ^ 52 ≤ 2 ^ 64 by decide)
    obtain ⟨level, entryFlags, hrun, hf, hlevel⟩ :=
      physRun_cases huge (n * pageSize) hp ha hplt64
    obtain ⟨a, hae⟩ : ∃ a, a = 2 ^ (9 * (3 - level)) := ⟨_, rfl⟩
    obtain ⟨hapos, hshift⟩ := two_pow_shift hae
    have hcount : (n * pageSize) >>> (12 + 9 * (3 - level)) = n / a := by
      rw [shiftRight_eq_div_pow, hshift, mul_comm n pageSize, Nat.mul_div_mul_left _ _ (by decide)]
    obtain ⟨m, hm⟩ : ∃ m, n / a * a = m := ⟨_, rfl⟩
    have hle : m ≤ n := hm ▸ div_mul_le_self n a
    have htotal : n / a * (pageSize * a) = m * pageSize := by
      rw [mul_comm pageSize a, ← mul_assoc, hm]
    -- a large page is used where both addresses are aligned to it
    have hfacts : 1 ≤ level ∧ level ≤ 3 ∧ a ≤ n ∧ paddr % (pageSize * a) = 0 ∧
        ptesFromAddr vaddr % a = 0 ∧ (level = 3 → a = 1) ∧ (level ≠ 3 →
          vaddr % (pageSize * a) = 0) := by
      rcases hlevel with rfl | ⟨hl, hhuge, hpal, hlen⟩
      · rw [show a = 1 from hae, mod_one]
        exact ⟨by decide, by decide, hn, hpa, rfl, fun _ => rfl, absurd rfl⟩
      obtain ⟨h2, h1⟩ := halign hhuge
      rw [hshift] at hpal hlen
      refine ⟨by omega, by omega, ?_, hpal, ?_⟩
      · rw [mul_comm n] at hlen
        exact le_of_mul_le_mul_left hlen (by decide)
      · rw [ptesFromAddr_eq]
        rcases hl with rfl | rfl
        · rw [show a = 2 ^ 18 from hae] at hpal hlen ⊢
          have := h1 hpal hlen
          unfold pageSize
          omega
        · rw [show a = 2 ^ 9 from hae] at hpal hlen ⊢
          have := h2 hpal hlen
          unfold pageSize
          omega
    obtain ⟨hl1, hl3, han, hpal, hfal, hone, hval⟩ := hfacts
    have hcpos : 0 < n / a := div_pos han hapos
    have hmpos : 0 < m := hm ▸ mul_pos hcpos hapos
    have hmulle : m * pageSize ≤ n * pageSize := mul_le_mul_right _ hle
    have hhalf' : InHalf vaddr m := by
      unfold InHalf at hhalf ⊢
      omega
    obtain ⟨s1, hs1, hok⟩ := run_ok vaddr hae hl1 hl3 hcpos hf hpal (by omega) rfl hfal
      (by rw [htotal, hm]; exact ptesFromAddr_last hva hmpos hhalf') hg (by omega)
      fun q h1 h2 => hfree q h1 (by omega)
    rw [hm] at hok
    have hlen : n * pageSize - m * pageSize = (n - m) * pageSize :=
      (Nat.sub_mul _ _ _).symm
    unfold mapPhysical
    simp only [hrun, hcount, shiftLeft_eq, hshift]
    rw [ok_bind hs1, htotal, hlen]
    by_cases hlast : n - m = 0
    · rw [hlast, zero_mul]
      refine ⟨_, rfl, fun j hj => hok.mapped j (by omega), hok.before⟩
    have hlt : m < n := by omega
    obtain ⟨hnext, hnv⟩ := ptesFromAddr_next hva hlt hhalf
    have hused := hok.used
    obtain ⟨s', hs', hmapped, hbefore⟩ := ih (n := n - m)
      (paddr + m * pageSize) (vaddr + m * pageSize)
      (by omega) (by omega) (by rw [add_mul_mod_self_right]; exact hpa)
      (by omega) (by rw [add_mul_mod_self_right]; exact hva) (by
        unfold InHalf at hhalf ⊢
        omega)
      (by
        intro hhuge
        obtain ⟨h2, h1⟩ := halign hhuge
        rcases hlevel with rfl | ⟨rfl | rfl, -⟩
        · exact absurd (by rw [← hm, hone rfl, Nat.div_one, mul_one, Nat.sub_self]) hlast
        · rw [show a = 2 ^ 18 from hae] at hm
          unfold pageSize at *
          omega
        · rw [show a = 2 ^ 9 from hae] at hm
          unfold pageSize
          omega)
      hok.good (by omega) fun q h1 h2 hc => by
        rw [hnext] at h1
        exact hfree q (by omega) (by omega) (hok.behind q h1 hc)
    rw [hnext] at hmapped
    rw [if_neg (by
      have : 0 < (n - m) * pageSize := mul_pos (by omega) (by decide)
      omega), mod_w64 (by omega), hnv]
    refine ⟨s', hs', fun j hj => ?_, fun q e hq he => ?_⟩
    · by_cases hj' : j < m
      · have hm := hok.mapped j hj'
        unfold translate at ⊢
        obtain ⟨e, he, hframe⟩ := map_eq_some_iff.1 hm
        rw [hbefore _ e (by omega) he, map_some, hframe]
      · have hm := hmapped (j - m) (by omega)
        rw [show ptesFromAddr vaddr + m + (j - m) = ptesFromAddr vaddr + j by
          omega] at hm
        rw [hm, add_assoc, ← add_mul, show m + (j - m) = j by omega]
    · exact hbefore q e (by omega) (hok.before q e hq he)

end loop

/-! ## Before the memory map is handed over -/

/-- Early tables were made of at most `need` pages; no large page has appeared. -/
structure EarlyOk (s s' : Mm) (need : Nat) : Prop where
  good : GoodFrames s'.toSt
  used : s.frames.length ≤ s'.frames.length + need
  huge : ∀ q, HugeMapped s'.tables q → HugeMapped s.tables q

theorem EarlyOk.trans {s s' s'' : Mm} {n m : Nat} (h : EarlyOk s s' n) (h' : EarlyOk s' s'' m) :
    EarlyOk s s'' (n + m) :=
  ⟨h'.good, by have := h.used; have := h'.used; omega, fun q hq => h.huge q (h'.huge q hq)⟩

section early

variable {s : Mm}

theorem earlyTable_ok {pathFlags : Nat} (level page : Nat) (hg : GoodFrames s.toSt)
    (hroom : 1 ≤ s.frames.length) (h3 : level < 3) (hp : present pathFlags = true)
    (hs : isPageSize pathFlags = false) :
    ∃ s', earlyTable s pathFlags level page = .ok s' ∧ EarlyOk s s' 1 := by
  unfold earlyTable
  split_ifs with hzero
  · unfold Mm.allocPhys
    cases hf : s.frames with
    | nil => rw [hf] at hroom; simp at hroom
    | cons ptaddr frames =>
      have hmem : ptaddr ∈ s.frames := by rw [hf]; exact List.mem_cons_self
      have htail : ∀ f ∈ frames, f ∈ s.frames := fun f hf' => by
        rw [hf]
        exact List.mem_cons_of_mem _ hf'
      obtain ⟨hnew, hsmall⟩ := newEntry_bits hp hs (isPage_iff.1 (hg.page ptaddr hmem)).1
      have hold : present (s.tables level (pteIndex level page)) = false := by
        rw [show s.tables level (pteIndex level page) = 0 from hzero]
        decide
      have hfilled := filled_newTable hold hnew hsmall
      refine ⟨_, rfl, hg.of_frames rfl htail, ?_, (hfilled.keeps h3).huge⟩
      rw [hf]
      exact le_rfl
  · exact ⟨s, rfl, hg, Nat.le_add_right _ _, fun _ h => h⟩

theorem earlyTables_ok (addr page : Nat) (hg : GoodFrames s.toSt) (hroom : 3 ≤ s.frames.length) :
    ∃ s', earlyTables s addr page = .ok s' ∧ EarlyOk s s' 3 := by
  have hp : present (ptePresent ||| pteWritable |||
      (if addr ≤ 0x7fffffffffff then pteUser else 0)) = true := by
    split <;> decide
  have hs : isPageSize (ptePresent ||| pteWritable |||
      (if addr ≤ 0x7fffffffffff then pteUser else 0)) = false := by
    split <;> decide
  unfold earlyTables
  split
  · obtain ⟨s1, h1, o1⟩ := earlyTable_ok 0 page hg (by omega) (by decide) hp hs
    have u1 := o1.used
    obtain ⟨s2, h2, o2⟩ := earlyTable_ok 1 page o1.good (by omega) (by decide) hp hs
    have u2 := o2.used
    obtain ⟨s3, h3, o3⟩ := earlyTable_ok 2 page o2.good (by omega) (by decide) hp hs
    refine ⟨s3, ?_, (o1.trans o2).trans o3⟩
    rw [ok_bind h1, ok_bind h2]
    exact h3
  · exact ⟨s, rfl, hg, Nat.le_add_right _ _, fun _ h => h⟩

theorem mmuMapPage_ok (addr physaddr flags : Nat) (hg : GoodFrames s.toSt)
    (hroom : 3 ≤ s.frames.length) :
    ∃ s', mmuMapPage s addr physaddr flags = .ok s' ∧ EarlyOk s s' 3 ∧
      s'.tables 3 (ptesFromAddr addr) = (physaddr &&& pteAddr) ||| flags := by
  obtain ⟨s1, h1, hok⟩ := earlyTables_ok addr (ptesFromAddr addr) hg hroom
  let pte := (physaddr &&& pteAddr) ||| flags
  refine ⟨{ s1 with tables := s1.tables.set 3 (ptesFromAddr addr) pte },
    by rw [mmuMapPage, ok_bind h1]; rfl, ⟨hok.good.of_frames rfl fun _ h => h, hok.used,
      fun q hq => hok.huge q ?_⟩, if_pos ⟨rfl, rfl⟩⟩
  exact hq.congr fun l hl => (pteAt_set_ne s1.tables _ fun he => absurd he (by omega)).symm

/-- An early physical mapping: the first page gets the page behind the address. -/
theorem mapEarly_ok {c : MapCall} (hphys : c.flags.physical = true) (flags addr : Nat)
    {linear n : Nat} (hlinear : linear < w64) (hg : GoodFrames s.toSt)
    (hroom : 3 * n ≤ s.frames.length) :
    ∃ s', mapEarly c flags addr linear n s = .ok s' ∧
      (∀ q, HugeMapped s'.tables q → HugeMapped s.tables q) ∧
      (0 < n → s'.tables 3 (ptesFromAddr linear) =
        (((addr + pageSize) % w64) &&& pteAddr) ||| flags) := by
  induction n generalizing s with
  | zero => exact ⟨s, rfl, fun _ h => h, fun h => absurd h (lt_irrefl 0)⟩
  | succ n ih =>
    obtain ⟨s1, h1, hok, hentry⟩ := mmuMapPage_ok
      ((linear + (n + 1) * pageSize + w64 - pageSize) % w64)
      (((addr + (n + 1) * pageSize) % w64) &&& pteAddr) flags hg (by omega)
    have hused := hok.used
    obtain ⟨s', hs', hhuge, hfirst⟩ := ih hok.good (by omega)
    refine ⟨s', ?_, fun q hq => hok.huge q (hhuge q hq), fun _ => ?_⟩
    · rw [mapEarly]
      simp only [hphys, Bool.not_true, Bool.false_eq_true, if_false]
      rw [ok_bind h1]
      exact hs'
    · rcases Nat.eq_zero_or_pos n with rfl | hn
      · cases hs'
        have htarget : (linear + (0 + 1) * pageSize + w64 - pageSize) % w64 = linear := by
          rw [zero_add, one_mul, show linear + pageSize + w64 - pageSize = linear + w64 by
            omega, add_mod_right, mod_eq_of_lt hlinear]
        rw [htarget] at hentry
        rw [hentry, Nat.and_assoc, Nat.and_self, zero_add, one_mul]
      · exact hfirst hn

end early

/-! ## The call -/

/-- The length of the mapping. -/
def MapCall.mapLen (c : MapCall) : Nat := roundUp ((c.len + c.addr % pageSize) % w64)

/-- The physical address that an address reaches. -/
def physAt (t : Tables) (va : Nat) : Option Nat :=
  (translate t (ptesFromAddr va)).map (· + va % pageSize)

/-- The range of the call is reached at the address. -/
def MapCall.ReachedAt (c : MapCall) (t : Tables) (ret : Nat) : Prop :=
  ∀ k < c.len, physAt t ((ret + k) % w64) = some (c.addr + k)

/-- A call for a physical range, to which the allocator gives a range of address space that is not
mapped, with pages for the tables. -/
structure PhysCall (s : Mm) (c : MapCall) (linear offset : Nat) (s1 : Mm) : Prop where
  physical : c.flags.physical = true
  accepted : c.refused = false
  nonempty : 0 < c.len
  range : c.addr + c.len ≤ 2 ^ 52
  space : mapSpace s c.flags (c.addr - c.addr % pageSize) c.mapLen (c.addr % pageSize) =
    .ok (some (linear, offset), s1)
  above : 0x100000 < linear
  aligned : linear % pageSize = 0
  half : InHalf linear (c.mapLen / pageSize)
  fresh : ∀ q, ptesFromAddr linear ≤ q → q < ptesFromAddr linear + c.mapLen / pageSize →
    translate s.tables q = none
  good : GoodFrames s.toSt
  room : 3 * (c.mapLen / pageSize) ≤ s.frames.length

theorem mapSpace_physical {s s1 : Mm} {f : MapFlags} {addr len misalignment linear offset : Nat}
    (hphys : f.physical = true) (hpage : addr % pageSize = 0) (hlt : addr < 2 ^ 64)
    (h : mapSpace s f addr len misalignment = .ok (some (linear, offset), s1)) :
    s1.tables = s.tables ∧ s1.frames = s.frames ∧ s1.zerosPage = s.zerosPage ∧
      s1.early = s.early ∧ offset = (if f.hugetlb then 0 else misalignment) ∧
      Aligned f.hugetlb addr linear len := by
  unfold mapSpace at h
  simp only [hphys, or_true, if_true] at h
  cases hh : f.hugetlb with
  | false =>
    simp only [hh, Bool.not_false, if_true] at h
    obtain ⟨r, -, h⟩ := bind_eq_ok h
    cases h
    cases f.user <;> exact ⟨rfl, rfl, rfl, rfl, rfl, fun hc => absurd hc (by decide)⟩
  | true =>
    simp only [hh, Bool.not_true, Bool.false_eq_true, if_false] at h
    obtain ⟨r, hr, h⟩ := bind_eq_ok h
    -- the start is rounded up to the alignment of the address
    have hstart : ∃ x, r.1 = alignedStart x (hugeAlignment addr) := by
      obtain ⟨x, -, hr⟩ := bind_eq_ok hr
      obtain ⟨a1, -, hr⟩ := bind_eq_ok hr
      obtain ⟨a2, -, hr⟩ := bind_eq_ok hr
      obtain ⟨-, -, hr⟩ := bind_eq_ok hr
      cases hr
      exact ⟨x.1, rfl⟩
    obtain ⟨x, hx⟩ := hstart
    obtain ⟨k, -, hk30, hk, hmod, h30, h21⟩ := hugeAlignment_eq hlt hpage
    rw [hk] at hx h
    have hr1 := alignedStart_mod (show k ≤ 64 by omega) x
    rw [← hx] at hr1
    rw [and_two_pow_sub_one_eq_mod, hmod] at h
    cases h
    have halign : Aligned true addr r.1 len := by
      refine fun _ => ⟨fun ha _ => ?_, fun ha _ => ?_⟩
      · rcases h21 ha with rfl | rfl
        · omega
        · exact hr1
      · obtain rfl := h30 ha
        exact hr1
    cases f.user <;> exact ⟨rfl, rfl, rfl, rfl, rfl, halign⟩

section call

variable {s s1 : Mm} {c : MapCall} {linear offset : Nat}

section

variable (h : PhysCall s c linear offset s1)
include h

theorem PhysCall.lengths : 0 < c.mapLen / pageSize ∧ c.mapLen / pageSize * pageSize = c.mapLen ∧
      c.addr % pageSize + c.len ≤ c.mapLen ∧
      c.addr - c.addr % pageSize + c.mapLen ≤ 2 ^ 52 ∧
      (c.addr - c.addr % pageSize) % pageSize = 0 := by
  have h1 := h.nonempty
  have h2 := h.range
  have hlen : c.mapLen = (c.len + c.addr % pageSize + (pageSize - 1)) / pageSize * pageSize := by
    unfold MapCall.mapLen
    rw [mod_eq_of_lt (by unfold pageSize w64; omega), roundUp_eq (by unfold pageSize w64; omega)]
  rw [hlen]
  unfold pageSize
  omega

/-- Only the allocator changes before the entries are written. -/
theorem PhysCall.space_ok :
    s1.tables = s.tables ∧ s1.frames = s.frames ∧ GoodFrames s1.toSt ∧ s1.early = s.early ∧
      offset = (if c.flags.hugetlb then 0 else c.addr % pageSize) ∧
      Aligned c.flags.hugetlb (c.addr - c.addr % pageSize) linear c.mapLen := by
  obtain ⟨-, -, -, -, hpage⟩ := h.lengths
  have hrange := h.range
  obtain ⟨ht, hf, hz, hrest⟩ := mapSpace_physical h.physical hpage (by omega) h.space
  exact ⟨ht, hf, h.good.of_frames hz (by simp [hf]), hrest⟩

theorem PhysCall.mmap_eq (cpu : Cpu) : mmap cpu s c = (do
      let s' ← mapPages cpu s1 c (c.addr - c.addr % pageSize) linear c.mapLen
      return (some ((linear + offset) % w64), s'.flush)) := by
  unfold mmap
  rw [h.accepted, if_neg Bool.false_ne_true, if_neg (by have := h.nonempty; omega)]
  simp only
  rw [show roundUp ((c.len + c.addr % pageSize) % w64) = c.mapLen from rfl, ok_bind h.space]
  simp only [assert, if_pos h.above]
  rfl

theorem PhysCall.not_huge (q : Nat)
    (h1 : ptesFromAddr linear ≤ q) (h2 : q < ptesFromAddr linear + c.mapLen / pageSize) :
    ¬ HugeMapped s.tables q := fun hc =>
  hc.maps (map_eq_none_iff.1 (h.fresh q h1 h2))

theorem PhysCall.page {d : Nat} (hd : d < c.mapLen) : (linear + d) % w64 = linear + d ∧
      ptesFromAddr (linear + d) = ptesFromAddr linear + d / pageSize ∧
      (linear + d) % pageSize = d % pageSize ∧ d / pageSize < c.mapLen / pageSize := by
  have ha := h.aligned
  have hh := h.half
  obtain ⟨-, hmul, -⟩ := h.lengths
  unfold InHalf at hh
  rw [ptesFromAddr_eq, ptesFromAddr_eq]
  unfold lowEnd w64 pageSize at *
  omega

/-- After the handover, the pages are mapped in order. -/
theorem PhysCall.normal (cpu : Cpu) (he : s.early = false) :
    ∃ s', mapPages cpu s1 c (c.addr - c.addr % pageSize) linear c.mapLen = .ok s' ∧
      ∀ d < c.mapLen, physAt s'.tables ((linear + d) % w64) =
        some (c.addr - c.addr % pageSize + d) := by
  obtain ⟨hn, hmul, -, hlt, hpage⟩ := h.lengths
  obtain ⟨ht, hf, hgood, hearly, -, halign⟩ := h.space_ok
  obtain ⟨s', hs', hmapped, -⟩ := mapPhysical_ok c.flags.hugetlb
    (present_pageFlags cpu h.physical) (pageFlags_addr cpu c) (c.addr - c.addr % pageSize) linear
    hn (lt_succ_self (c.mapLen / pageSize)) hpage (by rw [hmul]; exact hlt)
    h.aligned h.half (by rw [hmul]; exact halign) hgood (by rw [hf]; exact h.room)
    (by rw [ht]; exact h.not_huge)
  rw [hmul] at hs'
  refine ⟨s', ?_, fun d hd => ?_⟩
  · unfold mapPages
    simp only [hearly, he, h.physical, Bool.false_eq_true, if_false, if_true]
    exact hs'
  · obtain ⟨hmod, hpg, hofs, hdlt⟩ := h.page hd
    rw [physAt, hmod, hpg, hmapped _ hdlt, map_some, hofs, add_assoc, div_add_mod']

/-- Before the handover, the first page is not the one that was asked for. -/
theorem PhysCall.early (cpu : Cpu) (he : s.early = true) :
    ∃ s', mapPages cpu s1 c (c.addr - c.addr % pageSize) linear c.mapLen = .ok s' ∧
      ∀ f, translate s'.tables (ptesFromAddr linear) = some f →
        f % pageSize = 0 ∧ f ≠ c.addr - c.addr % pageSize := by
  obtain ⟨hn, hmul, -, hlt, hpage⟩ := h.lengths
  obtain ⟨ht, hf, hgood, hearly, -, -⟩ := h.space_ok
  have hlinear : linear < w64 := by
    have := h.half
    unfold InHalf lowEnd at this
    have : 0 < c.mapLen / pageSize * pageSize := mul_pos hn (by decide)
    unfold w64 at *
    omega
  obtain ⟨s', hs', hhuge, hfirst⟩ := mapEarly_ok h.physical (pageFlags cpu c)
    (c.addr - c.addr % pageSize) hlinear hgood (by rw [hf]; exact h.room)
  refine ⟨s', ?_, fun f hc => ?_⟩
  · unfold mapPages
    simp only [hearly, he, if_true]
    exact hs'
  · obtain ⟨e, hleaf, hframe⟩ := map_eq_some_iff.1 hc
    have hnot : ¬ HugeMapped s'.tables (ptesFromAddr linear) := fun hm =>
      h.not_huge _ le_rfl (by omega) (by rw [← ht]; exact hhuge _ hm)
    -- the entry is that of the last level
    have hlast : e = ⟨3, pteAt s'.tables 3 (ptesFromAddr linear)⟩ := by
      obtain ⟨h0, h1, ⟨hs, -⟩ | ⟨hs, h2, ⟨hl, -⟩ | ⟨-, -, rfl⟩⟩⟩ := leaf_eq_some.1 hleaf
      · exact absurd ⟨h0, h1, .inl hs⟩ hnot
      · exact absurd ⟨h0, h1, .inr ⟨h2, hl⟩⟩ hnot
      · rfl
    have hentry : pteAt s'.tables 3 (ptesFromAddr linear) = _ := hfirst hn
    have hnext : IsPage (((c.addr - c.addr % pageSize + pageSize) % w64) &&& pteAddr) := by
      rw [IsPage, Nat.and_assoc, Nat.and_self]
    have hnextp := isPage_iff.1 hnext
    rw [hlast, hentry, frame_or (entryFlags_small (present_pageFlags cpu h.physical)
      (pageFlags_addr cpu c)) hnextp.1 hnextp.2, show (2 : Nat) ^ (9 * (3 - 3)) = 1 from rfl,
      mod_one, zero_mul] at hframe
    refine ⟨by rw [← hframe]; exact hnextp.1, fun hsame => ?_⟩
    have hpos : pageSize ≤ c.mapLen := by
      rw [← hmul]
      exact Nat.le_mul_of_pos_left _ hn
    -- the next page is the same page only if the addresses wrapped
    rcases lt_or_ge (c.addr - c.addr % pageSize + pageSize) (2 ^ 52) with hin | hin
    · rw [mod_eq_of_lt (by unfold w64; omega), isPage_iff.2 ⟨by
        rw [add_mod_right]
        exact hpage, hin⟩] at hframe
      unfold pageSize at hframe
      omega
    · have hlast52 : c.addr - c.addr % pageSize + pageSize = 2 ^ 52 := by omega
      rw [hlast52, show ((2 : Nat) ^ 52 % w64) &&& pteAddr = 0 by decide] at hframe
      unfold pageSize at *
      omega

end

end call

theorem phys_right_iff {s s1 : Mm} {c : MapCall} {linear offset : Nat} (cpu : Cpu)
    (h : PhysCall s c linear offset s1) : ∃ ret s', mmap cpu s c = .ok (some ret, s') ∧
      (c.ReachedAt s'.tables ret ↔
        s.early = false ∧ (c.flags.hugetlb = false ∨ c.addr % pageSize = 0)) := by
  obtain ⟨hn, hmul, hcover, hlt, hpage⟩ := h.lengths
  have hpos := h.nonempty
  have hpagepos : 0 < pageSize := by decide
  obtain ⟨-, -, -, -, hoffset, -⟩ := h.space_ok
  have hofs : offset ≤ c.addr % pageSize := by
    rw [hoffset]
    split <;> omega
  have hsub : c.addr - c.addr % pageSize + c.addr % pageSize = c.addr :=
    Nat.sub_add_cancel (Nat.mod_le _ _)
  refine ⟨(linear + offset) % w64, ?_⟩
  rw [h.mmap_eq cpu]
  cases he : s.early with
  | false =>
    obtain ⟨s', hs', hat⟩ := h.normal cpu he
    refine ⟨s'.flush, by rw [ok_bind hs']; rfl, ?_⟩
    have hret : ∀ k < c.len, physAt s'.tables (((linear + offset) % w64 + k) % w64) =
        some (c.addr - c.addr % pageSize + (offset + k)) := fun k hk => by
      rw [mod_add_mod, add_assoc]
      exact hat (offset + k) (by omega)
    simp only [true_and]
    constructor
    · intro hr
      have h0 := hr 0 hpos
      rw [show s'.flush.tables = s'.tables from rfl, hret 0 hpos] at h0
      have h0 := some.inj h0
      cases hh : c.flags.hugetlb with
      | false => exact .inl rfl
      | true =>
        rw [hh, if_pos rfl] at hoffset
        exact .inr (by omega)
    · intro hcond k hk
      have hoff : offset = c.addr % pageSize := by
        rw [hoffset]
        rcases hcond with hh | hz
        · rw [hh]
          rfl
        · rw [hz, ite_self]
      rw [show s'.flush.tables = s'.tables from rfl, hret k hk]
      congr 1
      omega
  | true =>
    obtain ⟨s', hs', hne⟩ := h.early cpu he
    refine ⟨s'.flush, by rw [ok_bind hs']; rfl, iff_of_false (fun hr => ?_) ?_⟩
    · have h0 := hr 0 hpos
      have hlin := h.page (d := offset) (by omega)
      have hlt := lt_of_le_of_lt hofs (mod_lt c.addr hpagepos)
      rw [div_eq_of_lt hlt] at hlin
      rw [show s'.flush.tables = s'.tables from rfl, add_zero, mod_mod, hlin.1, physAt,
        hlin.2.1] at h0
      obtain ⟨f, hf, hsum⟩ := map_eq_some_iff.1 h0
      obtain ⟨hfpage, hfne⟩ := hne f hf
      unfold pageSize at *
      omega
    · exact fun hc => absurd hc.1 (by decide)

/-! ## Calls -/

/-- Nothing is mapped. -/
def blank : Mm where
  tables _ _ := 0
  frames := [0x6000, 0x7000, 0x8000]
  zerosPage := 0x1000
  process := ContigAlloc.init 0x400000 0x100000
  linear := ContigAlloc.sampleFree
  mem _ := 0
  early := false
  batch := []

/-- Eight bytes inside of a page. -/
def inside (hugetlb : Bool) : MapCall where
  addr := 0x200123
  len := 8
  prot := { read := true, write := true, exec := false }
  flags := { physical := true, hugetlb }

theorem goodFrames_blank : GoodFrames blank.toSt where
  zeros := by decide
  page := by decide
  nonzero := by decide
  ne_zeros := by decide

theorem physCall_inside (hugetlb : Bool) :
    ∃ linear s1, PhysCall blank (inside hugetlb) linear (if hugetlb then 0 else 0x123) s1 := by
  have hspace : (mapSpace blank (inside hugetlb).flags 0x200000 0x1000 0x123).toOption.map
      Prod.fst = some (some (0xffff800000000000, if hugetlb then 0 else 0x123)) := by
    cases hugetlb <;> decide +kernel
  have hlen : (inside hugetlb).mapLen = 0x1000 := by
    show roundUp ((8 + 0x200123 % pageSize) % w64) = 0x1000
    decide
  obtain ⟨⟨space, s1⟩, hok, rfl⟩ := ok_of_map hspace
  refine ⟨0xffff800000000000, s1, rfl, rfl, show 0 < 8 by decide,
    show 0x200123 + 8 ≤ 2 ^ 52 by decide, ?_, by decide, by decide, ?_, fun q _ _ => ?_,
    goodFrames_blank, ?_⟩
  · rw [hlen, show (inside hugetlb).addr - (inside hugetlb).addr % pageSize = 0x200000 by
      cases hugetlb <;> decide, show (inside hugetlb).addr % pageSize = 0x123 by
      cases hugetlb <;> decide]
    exact hok
  · rw [hlen]
    exact .inr (by decide)
  · have hzero : present (pteAt blank.tables 0 q) = false := present_zero
    rw [translate, leaf_absent_top hzero]
    rfl
  · rw [hlen]
    decide

def sampleCpu : Cpu := ⟨true, w64 - 1⟩

theorem phys_right_inside : ∃ linear s1, PhysCall blank (inside false) linear 0x123 s1 ∧
    ∃ ret s', mmap sampleCpu blank (inside false) = .ok (some ret, s') ∧
      (inside false).ReachedAt s'.tables ret := by
  obtain ⟨linear, s1, h⟩ := physCall_inside false
  obtain ⟨ret, s', hok, hiff⟩ := phys_right_iff sampleCpu h
  exact ⟨linear, s1, h, ret, s', hok, hiff.2 ⟨rfl, .inl rfl⟩⟩

/-- The returned address is that of the page, not of the byte in it. -/
theorem phys_offset_lost : ∃ linear s1, PhysCall blank (inside true) linear 0 s1 ∧
    ∃ ret s', mmap sampleCpu blank (inside true) = .ok (some ret, s') ∧
      ¬ (inside true).ReachedAt s'.tables ret := by
  obtain ⟨linear, s1, h⟩ := physCall_inside true
  obtain ⟨s', hs', hat⟩ := h.normal sampleCpu rfl
  refine ⟨linear, s1, h, (linear + 0) % w64, s'.flush, by rw [h.mmap_eq, ok_bind hs']; rfl,
    fun hr => ?_⟩
  have h0 := hr 0 (by decide)
  have hpos : 0 < (inside true).mapLen :=
    lt_of_lt_of_le (show 0 < 0x200123 % pageSize + 8 by decide) h.lengths.2.2.1
  rw [show s'.flush.tables = s'.tables from rfl, mod_add_mod, hat 0 hpos] at h0
  cases some.inj h0

end Dgos.L2.PageTable
