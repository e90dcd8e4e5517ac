import Dgos.L2Memory.Translate

/-!
# New page tables

`mm_create_pagetables_aligned` down to any level: with enough pages it succeeds, afterwards the
tables above the level are there for every page of the range, and no page that was mapped is
mapped differently.

Results:
* `createPagetables_spec`: afterwards every page of the range has an entry, and every page that
  had one has kept it.
* `createPagetables_ok`: the call, for a range that no large page covers.
-/
namespace Dgos.L2.PageTable

open Option Bool Nat

open ContigAlloc (Err assert pageSize sub64 w64)

/-- The tables above the level are there for the page. -/
structure Reaches (t : Tables) (level page : Nat) : Prop where
  there : ∀ l < level, present (pteAt t l page) = true
  small : ∀ l < level, l ≠ 0 → isPageSize (pteAt t l page) = false

section

variable {t : Tables} {q : Nat}

theorem Walkable.reaches (h : Walkable t q) : Reaches t 3 q := by
  refine ⟨fun l hl => ?_, fun l hl h0 => ?_⟩
  · obtain rfl | rfl | rfl : l = 0 ∨ l = 1 ∨ l = 2 := by omega
    exacts [h.top, h.dirs, h.dir]
  · obtain rfl | rfl : l = 1 ∨ l = 2 := by omega
    exacts [h.dirsSmall, h.dirSmall]

theorem Reaches.walkable (h : Reaches t 3 q) : Walkable t q :=
  ⟨h.there 0 (by decide), h.there 1 (by decide), h.small 1 (by decide) (by decide),
    h.there 2 (by decide), h.small 2 (by decide) (by decide)⟩

end

/-- What was mapped is mapped the same way, and no large page has appeared. -/
structure Keeps (t t' : Tables) : Prop where
  leaf : ∀ q e, leaf t q = some e → PageTable.leaf t' q = some e
  huge : ∀ q, HugeMapped t' q → HugeMapped t q

theorem Keeps.refl (t : Tables) : Keeps t t := ⟨fun _ _ h => h, fun _ h => h⟩

theorem Keeps.trans {t t' t'' : Tables} (h : Keeps t t') (h' : Keeps t' t'') : Keeps t t'' :=
  ⟨fun q e he => h'.leaf q e (h.leaf q e he), fun q hq => h.huge q (h'.huge q hq)⟩

/-! ## Walks -/

section walks

variable {t t' : Tables} {q : Nat} {e : Leaf}

theorem leaf_eq_some : leaf t q = some e ↔
    present (pteAt t 0 q) = true ∧ present (pteAt t 1 q) = true ∧
      (isPageSize (pteAt t 1 q) = true ∧ e = ⟨1, pteAt t 1 q⟩ ∨
        isPageSize (pteAt t 1 q) = false ∧ present (pteAt t 2 q) = true ∧
          (isPageSize (pteAt t 2 q) = true ∧ e = ⟨2, pteAt t 2 q⟩ ∨
            isPageSize (pteAt t 2 q) = false ∧ present (pteAt t 3 q) = true ∧
              e = ⟨3, pteAt t 3 q⟩)) := by
  unfold leaf
  cases present (pteAt t 0 q) <;> cases present (pteAt t 1 q) <;>
    cases isPageSize (pteAt t 1 q) <;> cases present (pteAt t 2 q) <;>
    cases isPageSize (pteAt t 2 q) <;> cases present (pteAt t 3 q) <;> simp [eq_comm]

/-- Every entry on the way to the page is there. -/
theorem leaf_path (h : leaf t q = some e) :
    e.level ≤ 3 ∧ ∀ l ≤ e.level, present (pteAt t l q) = true := by
  obtain ⟨h0, h1, ⟨-, rfl⟩ | ⟨-, h2, ⟨-, rfl⟩ | ⟨-, h3, rfl⟩⟩⟩ := leaf_eq_some.1 h
  · refine ⟨by simp, fun l hl => ?_⟩
    obtain rfl | rfl : l = 0 ∨ l = 1 := by simp only at hl; omega
    exacts [h0, h1]
  · refine ⟨by simp, fun l hl => ?_⟩
    obtain rfl | rfl | rfl : l = 0 ∨ l = 1 ∨ l = 2 := by simp only at hl; omega
    exacts [h0, h1, h2]
  · refine ⟨by simp, fun l hl => ?_⟩
    obtain rfl | rfl | rfl | rfl : l = 0 ∨ l = 1 ∨ l = 2 ∨ l = 3 := by simp only at hl; omega
    exacts [h0, h1, h2, h3]

theorem leaf_of_path (h : leaf t q = some e)
    (hsame : ∀ l ≤ e.level, pteAt t' l q = pteAt t l q) : leaf t' q = some e := by
  obtain ⟨h0, h1, ⟨hs, rfl⟩ | ⟨hs, h2, ⟨hl, rfl⟩ | ⟨hl, h3, rfl⟩⟩⟩ := leaf_eq_some.1 h
  · rw [leaf_eq_some, hsame 0 (by simp), hsame 1 (by simp)]
    exact ⟨h0, h1, .inl ⟨hs, rfl⟩⟩
  · rw [leaf_eq_some, hsame 0 (by simp), hsame 1 (by simp), hsame 2 (by simp)]
    exact ⟨h0, h1, .inr ⟨hs, h2, .inl ⟨hl, rfl⟩⟩⟩
  · rw [leaf_eq_some, hsame 0 (by simp), hsame 1 (by simp), hsame 2 (by simp), hsame 3 (by simp)]
    exact ⟨h0, h1, .inr ⟨hs, h2, .inr ⟨hl, h3, rfl⟩⟩⟩

theorem HugeMapped.maps (h : HugeMapped t q) : Maps t q := by
  obtain ⟨h0, h1, hs | ⟨h2, hl⟩⟩ := h
  · rw [Maps, leaf_giant h0 h1 hs]
    exact some_ne_none _
  cases hs : isPageSize (pteAt t 1 q) with
  | true =>
    rw [Maps, leaf_giant h0 h1 hs]
    exact some_ne_none _
  | false =>
    rw [Maps, leaf_large h0 h1 hs h2 hl]
    exact some_ne_none _

theorem HugeMapped.congr (h : HugeMapped t q) (hsame : ∀ l < 3, pteAt t' l q = pteAt t l q) :
    HugeMapped t' q := by
  unfold HugeMapped
  rw [hsame 0 (by decide), hsame 1 (by decide), hsame 2 (by decide)]
  exact h

theorem Reaches.leaf {level : Nat} (h : Reaches t level q) (h1 : 1 ≤ level) (h3 : level ≤ 3)
    (hp : present (pteAt t level q) = true) (hs : level < 3 → isPageSize (pteAt t level q) = true) :
    PageTable.leaf t q = some ⟨level, pteAt t level q⟩ := by
  obtain rfl | rfl | rfl : level = 1 ∨ level = 2 ∨ level = 3 := by omega
  · exact leaf_giant (h.there 0 (by decide)) hp (hs (by decide))
  · exact leaf_large (h.there 0 (by decide)) (h.there 1 (by decide))
      (h.small 1 (by decide) (by decide)) hp (hs (by decide))
  · refine leaf_eq_some.2 ⟨h.there 0 (by decide), h.there 1 (by decide), .inr
      ⟨h.small 1 (by decide) (by decide), h.there 2 (by decide), .inr
        ⟨h.small 2 (by decide) (by decide), hp, rfl⟩⟩⟩

end walks

/-! ## A level -/

section filled

variable {t t' : Tables} {level i count q : Nat} (f : Filled t t' level i count)
include f

/-- A path that is there is not touched. -/
theorem Filled.path (h3 : level < 3) {m : Nat}
    (h : ∀ l ≤ m, present (pteAt t l q) = true) {l : Nat} (hl : l ≤ m) :
    pteAt t' l q = pteAt t l q := by
  refine f.keep l _ (fun _ => h l hl) fun he => ?_
  subst he
  rw [pteIndex_shift h3]
  exact h level (by omega)

theorem Filled.same (h3 : level < 3) (hp : present (pteAt t level q) = true) (l : Nat) :
    pteAt t' l q = pteAt t l q := by
  refine f.keep l _ (fun hl => ?_) fun hl => ?_
  · subst hl
    exact hp
  · subst hl
    rw [pteIndex_shift h3]
    exact hp

theorem Filled.keeps (h3 : level < 3) : Keeps t t' where
  leaf q e he := by
    obtain ⟨-, hp⟩ := leaf_path he
    exact leaf_of_path he fun l hl => f.path h3 hp hl
  huge q hq := by
    cases hp : present (pteAt t level q) with
    | true => exact hq.congr fun l _ => (f.same h3 hp l).symm
    | false =>
      -- the entry has been made small, with an empty table under it
      obtain ⟨h0, h1, hrest⟩ := hq
      have hsmall : present (pteAt t' level q) = true → isPageSize (pteAt t' level q) = false :=
        f.small _ hp
      have hnext : present (pteAt t' level q) = true →
          present (pteAt t' (level + 1) q) = false := fun h => by
        rw [pteAt, f.cleared _ (by rw [pteIndex_shift h3]; exact hp)
          (by rw [pteIndex_shift h3]; exact h), present_zero]
      have hup : ∀ l < level, pteAt t' l q = pteAt t l q := fun l hl =>
        f.keep l _ (by omega) (by omega)
      obtain rfl | rfl | rfl : level = 0 ∨ level = 1 ∨ level = 2 := by omega
      · exact absurd h1 (eq_false_iff.1 (hnext h0))
      · rcases hrest with hg | ⟨h2, -⟩
        · exact absurd hg (eq_false_iff.1 (hsmall h1))
        · exact absurd h2 (eq_false_iff.1 (hnext h1))
      · rw [hup 0 (by decide)] at h0
        rw [hup 1 (by decide)] at h1 hrest
        exact ⟨h0, h1, hrest.imp_right fun ⟨h2, hl⟩ =>
          absurd hl (eq_false_iff.1 (hsmall h2))⟩

theorem Filled.reaches (h3 : level < 3) (hq : ¬ HugeMapped t q) (h : Reaches t level q)
    (h1 : i ≤ pteIndex level q) (h2 : pteIndex level q < i + count) : Reaches t' (level + 1) q := by
  have hsame : ∀ l < level, pteAt t' l q = pteAt t l q := fun l hl =>
    f.keep l _ (by omega) (by omega)
  have hmade : present (pteAt t' level q) = true := f.made _ h1 h2
  refine ⟨fun l hl => ?_, fun l hl h0 => ?_⟩
  · rcases Nat.lt_succ_iff_lt_or_eq.1 hl with hl | rfl
    · rw [hsame l hl]
      exact h.there l hl
    · exact hmade
  · rcases Nat.lt_succ_iff_lt_or_eq.1 hl with hl | rfl
    · rw [hsame l hl]
      exact h.small l hl h0
    · refine eq_false_iff.2 fun hs => hq ((f.keeps h3).huge q ?_)
      have hup : ∀ k < l, present (pteAt t' k q) = true := fun k hk => by
        rw [hsame k hk]
        exact h.there k hk
      obtain rfl | rfl : l = 1 ∨ l = 2 := by omega
      · exact ⟨hup 0 (by decide), hmade, .inl hs⟩
      · exact ⟨hup 0 (by decide), hup 1 (by decide), .inr ⟨hmade, hs⟩⟩

end filled

/-! ## All levels -/

/-- What new tables for the pages `[st, en]` change, from the level `level` down to `levels`. -/
structure Created (s s' : St) (st en level levels : Nat) : Prop where
  only : OnlyTables s s'
  keeps : Keeps s.tables s'.tables
  same : ∀ q l, Reaches s.tables 3 q → pteAt s'.tables l q = pteAt s.tables l q
  reaches : st ≤ en → en + 1 < w64 → ∀ q, st ≤ q → q ≤ en → ¬ HugeMapped s.tables q →
    Reaches s.tables level q → Reaches s'.tables levels q

section created

variable {s s' : St} {start size st en : Nat} (hframes : ∀ f ∈ s.frames, f % pageSize = 0)
include hframes

theorem createLevels_spec {count level : Nat} (h3 : level + count ≤ 3)
    (h : createLevels (tableFlags start) st en count level s = .ok s') :
    Created s s' st en level (level + count) := by
  induction count generalizing s level with
  | zero =>
    cases h
    exact ⟨.refl _, .refl _, fun _ _ _ => rfl, fun _ _ _ _ _ _ h => h⟩
  | succ count ih =>
    obtain ⟨s1, h1, h2⟩ := bind_eq_ok h
    obtain ⟨ho, hf⟩ := createLevel_spec hframes h1
    have hk := hf.keeps (by omega)
    have hc := ih (fun f hm => hframes f (ho.frames f hm)) (by omega) h2
    have hsame : ∀ q l, Reaches s.tables 3 q → pteAt s1.tables l q = pteAt s.tables l q :=
      fun q l hq => hf.same (by omega) (hq.there level (by omega)) l
    rw [add_right_comm] at hc
    refine ⟨ho.trans hc.only, hk.trans hc.keeps, fun q l hq => ?_, fun hle hen q hq1 hq2 hq hr => ?_⟩
    · refine (hc.same q l ⟨fun l hl => ?_, fun l hl h0 => ?_⟩).trans (hsame q l hq)
      · rw [hsame q l hq]
        exact hq.there l hl
      · rw [hsame q l hq]
        exact hq.small l hl h0
    · exact hc.reaches hle hen q hq1 hq2 (fun hh => hq (hk.huge q hh))
        (hf.reaches (by omega) hq hr (pteIndex_mono hq1) (lt_rangeCount hen hle hq2))

theorem createPagetables_created {levels : Nat} (h3 : levels ≤ 3)
    (h : createPagetables s start size levels = .ok s') :
    Created s s' (ptesFromAddr start) (ptesFromAddr ((start + size + w64 - 1) % w64)) 0 levels := by
  unfold createPagetables at h
  simp only at h
  split_ifs at h with hfast
  · cases h
    refine ⟨.refl s, .refl _, fun _ _ _ => rfl, fun _ _ q hq1 hq2 hq _ => ?_⟩
    generalize ptesFromAddr start = st at *
    -- the whole range is under the entries of its first page
    have hthere : ∀ l < levels, present (pteAt s.tables l q) = true := fun l hl => by
      have hlast : pteIndex (levels - 1) q = pteIndex (levels - 1) st :=
        le_antisymm ((pteIndex_mono hq2).trans hfast.1.ge) (pteIndex_mono hq1)
      have hshift : ∀ p, pteIndex l p = pteIndex (levels - 1) p >>> (9 * (levels - 1 - l)) :=
        fun p => by
          unfold pteIndex
          rw [← shiftRight_add]
          congr 1
          omega
      rw [pteAt, hshift, hlast, ← hshift]
      exact hfast.2 l hl
    refine ⟨hthere, fun l hl h0 => eq_false_iff.2 fun hs => hq ?_⟩
    obtain rfl | rfl : l = 1 ∨ l = 2 := by omega
    · exact ⟨hthere 0 (by omega), hthere 1 hl, .inl hs⟩
    · exact ⟨hthere 0 (by omega), hthere 1 (by omega), .inr ⟨hthere 2 hl, hs⟩⟩
  · have hc := createLevels_spec hframes (by omega) h
    rwa [zero_add] at hc

end created

theorem reaches_zero (t : Tables) (q : Nat) : Reaches t 0 q :=
  ⟨nofun, nofun⟩

theorem ptesFromAddr_succ_lt (addr : Nat) : ptesFromAddr addr + 1 < w64 := by
  rw [ptesFromAddr_eq]
  unfold pageSize w64
  omega

theorem createPagetables_spec {s s' : St} {start size st en : Nat}
    (hframes : ∀ f ∈ s.frames, f % pageSize = 0) (hst : ptesFromAddr start = st)
    (hen : ptesFromAddr ((start + size + w64 - 1) % w64) = en) (hle : st ≤ en)
    (h : createPagetables s start size 3 = .ok s') :
    (∀ q, Walkable s.tables q → Walkable s'.tables q ∧ s'.tables 3 q = s.tables 3 q) ∧
      ∀ q, st ≤ q → q ≤ en → ¬ HugeMapped s.tables q → Walkable s'.tables q := by
  subst hst hen
  have hc := createPagetables_created hframes le_rfl h
  refine ⟨fun q hq => ⟨hq.congr fun l _ => hc.same q l hq.reaches, hc.same q 3 hq.reaches⟩,
    fun q h1 h2 hq => ?_⟩
  exact (hc.reaches hle (ptesFromAddr_succ_lt _) q h1 h2 hq (reaches_zero _ q)).walkable

/-! ## Pages for tables -/

/-- The address of a physical page. -/
def IsPage (p : Nat) : Prop := p &&& pteAddr = p

instance (p : Nat) : Decidable (IsPage p) := inferInstanceAs (Decidable (_ = _))

theorem testBit_pteAddr (i : Nat) : pteAddr.testBit i = (decide (12 ≤ i) && decide (i < 52)) := by
  unfold pteAddr
  rw [testBit_shiftLeft, testBit_two_pow_sub_one]
  by_cases h1 : 12 ≤ i <;> by_cases h2 : i < 52 <;> simp [h1, h2] <;> omega

theorem isPage_iff {p : Nat} : IsPage p ↔ p % pageSize = 0 ∧ p < 2 ^ 52 := by
  constructor
  · intro h
    have hbit : ∀ i, (p.testBit i && (decide (12 ≤ i) && decide (i < 52))) = p.testBit i := by
      intro i
      rw [← testBit_pteAddr, ← testBit_and, h]
    refine ⟨eq_of_testBit_eq fun i => ?_, lt_pow_two_of_testBit p fun i hi => ?_⟩
    · rw [show pageSize = 2 ^ 12 from rfl, testBit_mod_two_pow]
      by_cases hi : i < 12
      · rw [← hbit i]
        simp [show ¬ 12 ≤ i by omega]
      · simp [hi]
    · rw [← hbit i]
      simp [show ¬ i < 52 by omega]
  · rintro ⟨h0, hlt⟩
    refine eq_of_testBit_eq fun i => ?_
    rw [testBit_and, testBit_pteAddr]
    by_cases h1 : 12 ≤ i
    · by_cases h2 : i < 52
      · simp [h1, h2]
      · rw [testBit_lt_two_pow (lt_of_lt_of_le hlt
          (Nat.pow_le_pow_right (by decide) (by omega)))]
        rfl
    · have := testBit_mod_two_pow p 12 i
      rw [show p % 2 ^ 12 = 0 from h0] at this
      simp [show i < 12 by omega] at this
      simp [this]

theorem not_zeros {pte z : Nat} (hz : IsPage z) (h : pte &&& pteAddr ≠ z) :
    pte &&& (pteAddr ||| pteWritable) ≠ z ||| pteWritable := by
  intro he
  apply h
  have hand : (pteAddr ||| pteWritable) &&& pteAddr = pteAddr := by decide
  have hw : pteWritable &&& pteAddr = 0 := by decide
  calc pte &&& pteAddr = pte &&& (pteAddr ||| pteWritable) &&& pteAddr := by
        rw [Nat.and_assoc, hand]
    _ = z := by rw [he, Nat.and_or_distrib_right, hw, Nat.or_zero, hz]

/-- Physical pages that can become tables. -/
structure GoodFrames (s : St) : Prop where
  zeros : IsPage s.zerosPage
  page : ∀ f ∈ s.frames, IsPage f
  nonzero : ∀ f ∈ s.frames, f ≠ 0
  ne_zeros : ∀ f ∈ s.frames, f ≠ s.zerosPage

/-- Tables were made of at most `need` pages, and nothing else has changed. -/
structure Grown (s s' : St) (need : Nat) : Prop where
  only : OnlyTables s s'
  zeros : s'.zerosPage = s.zerosPage
  used : s.frames.length ≤ s'.frames.length + need

theorem Grown.refl (s : St) (need : Nat) : Grown s s need := ⟨.refl s, rfl, le_add_right _ _⟩

theorem Grown.trans {s s' s'' : St} {n m : Nat} (h : Grown s s' n) (h' : Grown s' s'' m) :
    Grown s s'' (n + m) :=
  ⟨h.only.trans h'.only, h'.zeros.trans h.zeros, by have := h.used; have := h'.used; omega⟩

theorem GoodFrames.of_frames {s s' : St} (h : GoodFrames s) (hz : s'.zerosPage = s.zerosPage)
    (hsub : ∀ f ∈ s'.frames, f ∈ s.frames) : GoodFrames s' where
  zeros := by rw [hz]; exact h.zeros
  page f hf := h.page f (hsub f hf)
  nonzero f hf := h.nonzero f (hsub f hf)
  ne_zeros f hf := by rw [hz]; exact h.ne_zeros f (hsub f hf)

theorem GoodFrames.grown {s s' : St} {n : Nat} (h : GoodFrames s) (hg : Grown s s' n) :
    GoodFrames s' := h.of_frames hg.zeros hg.only.frames

theorem GoodFrames.aligned {s : St} (h : GoodFrames s) : ∀ f ∈ s.frames, f % pageSize = 0 :=
  fun f hf => (isPage_iff.1 (h.page f hf)).1

section create

variable {s : St}

theorem tableFlags_addr (start page : Nat) :
    ((page ||| tableFlags start) &&& (w64 - 1 - pteGlobal)) &&& pteAddr = page &&& pteAddr := by
  have hg : (w64 - 1 - pteGlobal) &&& pteAddr = pteAddr := by decide
  have hf : tableFlags start &&& pteAddr = 0 := by
    unfold tableFlags
    split <;> decide
  rw [Nat.and_assoc, hg, Nat.and_or_distrib_right, hf, Nat.or_zero]

theorem needTable_ok (h : GoodFrames s) (hroom : 1 ≤ s.frames.length) (start level i : Nat) :
    ∃ s', needTable s (tableFlags start) level i = .ok s' ∧ Grown s s' 1 := by
  unfold needTable
  split
  · exact ⟨s, rfl, .refl s 1⟩
  unfold newTable
  cases hf : s.frames with
  | nil => rw [hf] at hroom; simp at hroom
  | cons page frames =>
    have hmem : page ∈ s.frames := by rw [hf]; exact List.mem_cons_self
    have hassert := not_zeros h.zeros
      (show (page ||| tableFlags start) &&& (w64 - 1 - pteGlobal) &&& pteAddr ≠ s.zerosPage by
        rw [tableFlags_addr, h.page page hmem]; exact h.ne_zeros page hmem)
    simp only [ContigAlloc.assert, if_pos (h.nonzero page hmem), if_pos hassert]
    refine ⟨_, rfl, ⟨fun f hf' => ?_, rfl, rfl⟩, rfl, ?_⟩
    · rw [hf]
      exact List.mem_cons_of_mem _ hf'
    · rw [hf]
      exact le_rfl

theorem createLevel_ok (h : GoodFrames s) {count : Nat} (hroom : count ≤ s.frames.length)
    (start level i : Nat) :
    ∃ s', createLevel (tableFlags start) level count i s = .ok s' ∧ Grown s s' count := by
  induction count generalizing s i with
  | zero => exact ⟨s, rfl, .refl s 0⟩
  | succ count ih =>
    obtain ⟨s1, h1, hg⟩ := needTable_ok h (by omega) start level i
    have hused := hg.used
    obtain ⟨s2, h2, hg'⟩ := ih (h.grown hg) (by omega) (i + 1)
    refine ⟨s2, ?_, by rw [add_comm]; exact hg.trans hg'⟩
    rw [createLevel, ok_bind h1]
    exact h2

theorem rangeCount_le {st en : Nat} (hle : st ≤ en) (hen : en + 1 < w64) (level : Nat) :
    (sub64 (pteIndex level en) (pteIndex level st) + 1) % w64 ≤ en - st + 1 := by
  have h1 := pteIndex_mono (l := level) hle
  have h2 := pteIndex_le level en
  rw [ContigAlloc.sub64_eq h1 (by omega), mod_eq_of_lt (by omega)]
  unfold pteIndex
  have hsub : en / 2 ^ (9 * (3 - level)) ≤ st / 2 ^ (9 * (3 - level)) + (en - st) := by
    calc en / 2 ^ (9 * (3 - level))
        = (st + (en - st)) / 2 ^ (9 * (3 - level)) := by rw [Nat.add_sub_cancel' hle]
      _ ≤ (st + (en - st) * 2 ^ (9 * (3 - level))) / 2 ^ (9 * (3 - level)) :=
          Nat.div_le_div_right (Nat.add_le_add_left
            (Nat.le_mul_of_pos_right _ (Nat.two_pow_pos _)) st)
      _ = st / 2 ^ (9 * (3 - level)) + (en - st) :=
          Nat.add_mul_div_right _ _ (Nat.two_pow_pos _)
  omega

theorem createLevels_ok {st en : Nat} (hle : st ≤ en) (hen : en + 1 < w64)
    (start count level : Nat) (s : St) (h : GoodFrames s)
    (hroom : count * (en - st + 1) ≤ s.frames.length) :
    ∃ s', createLevels (tableFlags start) st en count level s = .ok s' ∧
      Grown s s' (count * (en - st + 1)) := by
  induction count generalizing s level with
  | zero => exact ⟨s, rfl, .refl s _⟩
  | succ count ih =>
    rw [succ_mul] at hroom
    have hcount := rangeCount_le hle hen level
    obtain ⟨s1, h1, hg⟩ := createLevel_ok h
      (show (sub64 (pteIndex level en) (pteIndex level st) + 1) % w64 ≤ s.frames.length by omega)
      start level (pteIndex level st)
    have hused := hg.used
    obtain ⟨s2, h2, hg'⟩ := ih (level + 1) s1 (h.grown hg) (by omega)
    refine ⟨s2, ?_, hg.only.trans hg'.only, hg'.zeros.trans hg.zeros, ?_⟩
    · rw [createLevels, ok_bind h1]
      exact h2
    · have := hg'.used
      rw [succ_mul]
      omega

theorem createPagetables_ok {start levels st en : Nat} (size : Nat) (h : GoodFrames s)
    (hst : ptesFromAddr start = st) (hen : ptesFromAddr ((start + size + w64 - 1) % w64) = en)
    (hle : st ≤ en) (h3 : levels ≤ 3)
    (hroom : levels * (en - st + 1) ≤ s.frames.length)
    (hfree : ∀ q, st ≤ q → q ≤ en → ¬ HugeMapped s.tables q) :
    ∃ s', createPagetables s start size levels = .ok s' ∧ Grown s s' (levels * (en - st + 1)) ∧
      Keeps s.tables s'.tables ∧ ∀ q, st ≤ q → q ≤ en → Reaches s'.tables levels q := by
  subst hst hen
  have hb := ptesFromAddr_succ_lt ((start + size + w64 - 1) % w64)
  have hok : ∃ s', createPagetables s start size levels = .ok s' ∧
      Grown s s' (levels * (ptesFromAddr ((start + size + w64 - 1) % w64) -
        ptesFromAddr start + 1)) := by
    unfold createPagetables
    simp only
    split
    · exact ⟨s, rfl, .refl s _⟩
    · exact createLevels_ok hle hb start levels 0 s h hroom
  obtain ⟨s', hok, hg⟩ := hok
  have hc := createPagetables_created h.aligned h3 hok
  exact ⟨s', hok, hg, hc.keeps, fun q hq1 hq2 =>
    hc.reaches hle hb q hq1 hq2 (hfree q hq1 hq2) (reaches_zero _ q)⟩

end create

end Dgos.L2.PageTable
