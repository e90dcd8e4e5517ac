import Dgos.L2Memory.MunmapRange

/-!
# When `munmap` unmaps its range

`Unmapped` is what a call should do: the pages of the range are not mapped any more, every other
page is mapped as before, the ordinary pages of memory behind the range are released once each and
nothing else, and the range goes back to the allocator that owns it.

Results:
* `unmap_right_iff`: a call does it exactly under `Sound`, which asks of the tables before the
  call that no step over a missing page table passes over something mapped, that large pages are
  ordinary memory or physical mappings, and that the loop stops in the half it started in.
* `mapping_left_behind`: a range of 4 MB, with no page table for its first half, whose second half
  stays mapped.
-/
namespace Dgos.L2.PageTable

open List Option ContigAlloc Leaf Stand

open ContigAlloc (Alloc Err pageSize releaseLinear roundUp w64)

/-! ## The property -/

/-- The range of `size` bytes at `addr` has been unmapped. -/
structure Unmapped (s s' : St) (addr size : Nat) : Prop where
  inside : ∀ q, ptesFromAddr addr ≤ q → q < ptesFromAddr addr + size / pageSize →
    translate s'.tables q = none
  outside : ∀ q, ¬ (ptesFromAddr addr ≤ q ∧ q < ptesFromAddr addr + size / pageSize) →
    leaf s'.tables q = leaf s.tables q
  released : s'.frames.Perm (framesIn (fun e => pteIsSysmem e.pte) s.tables (ptesFromAddr addr)
    (ptesFromAddr addr + size / pageSize) ++ s.frames)
  owner : releaseLinear (s.allocator (addr < lowEnd)) addr size = .ok (s'.allocator (addr < lowEnd))
  other : s'.allocator (! decide (addr < lowEnd)) = s.allocator (! decide (addr < lowEnd))

/-- The loop variables before the first round. -/
def munmapStart (s : St) (addr : Nat) : Walk where
  tables := s.tables
  page := ptesFromAddr addr
  a := addr
  ofs := 0
  presentMask := ptesPresent s.tables (ptesFromAddr addr)
  freed := []

/-- The call reads tables that are there, returns, and has unmapped the range. -/
def Unmaps (s : St) (addr size : Nat) : Prop :=
  ReadsTables size (size / pageSize + 1) (munmapStart s addr) ∧
    ∃ s', munmap s addr size = .ok s' ∧ Unmapped s s' addr size

/-- A range of whole pages in one half of the address space that cuts no large page and that its
allocator takes back. -/
structure Unmappable (s : St) (addr size : Nat) : Prop where
  word : addr < w64
  addr_aligned : addr % pageSize = 0
  size_aligned : size % pageSize = 0
  half : addr + size ≤ lowEnd ∨ w64 - lowEnd ≤ addr ∧ addr + size ≤ w64
  cut : NotCut s.tables (ptesFromAddr addr) (ptesFromAddr addr + size / pageSize)
  held : ∃ a, releaseLinear (s.allocator (addr < lowEnd)) addr size = .ok a ∧
    a ≠ s.allocator (addr < lowEnd)

/-- The rounds of the loop over the range. -/
def rounds (t : Tables) (addr size : Nat) : List Stand :=
  stands t (ptesFromAddr addr + size / pageSize) (size / pageSize + 1) ⟨ptesFromAddr addr, false⟩

/-- The address behind the last round. -/
def stopAddr (t : Tables) (addr size : Nat) : Nat :=
  (addr + (stopAt t (ptesFromAddr addr + size / pageSize) (size / pageSize + 1)
    ⟨ptesFromAddr addr, false⟩ - ptesFromAddr addr) * pageSize) % w64

/-- What `munmap` needs of the tables. -/
structure Sound (t : Tables) (addr size : Nat) : Prop where
  passes : ∀ r ∈ rounds t addr size, r.Leaps t → r.Passes t (ptesFromAddr addr + size / pageSize)
  there : ∀ r ∈ rounds t addr size, r.stale = true → present (pteAt t 0 r.page) = true
  large : ∀ q e, ptesFromAddr addr ≤ q → q < ptesFromAddr addr + size / pageSize →
    leaf t q = some e → e.level ≠ 3 → pteIsSysmem e.pte = true ∨ e.pte.testBit 9 = true
  stop : stopAddr t addr size < lowEnd ↔ addr < lowEnd

/-! ## Released pages -/

variable {e : Leaf}

theorem Leaf.freed_of_sysmem (h : pteIsSysmem e.pte = true) : e.freed = true := by
  unfold freed
  obtain ⟨hp, h9, -, -⟩ := pteIsSysmem_iff.1 h
  split
  · exact h
  · exact decide_eq_true ((not_physical_iff hp).2 h9)

theorem Leaf.freed_eq_iff (hp : present e.pte = true) : e.freed = pteIsSysmem e.pte ↔
      (e.level ≠ 3 → pteIsSysmem e.pte = true ∨ e.pte.testBit 9 = true) := by
  unfold freed
  by_cases h3 : e.level = 3
  · simp [h3]
  rw [if_neg h3]
  cases hs : pteIsSysmem e.pte with
  | true =>
    refine iff_of_true ?_ fun _ => .inl rfl
    exact decide_eq_true ((not_physical_iff hp).2 (pteIsSysmem_iff.1 hs).2.1)
  | false => simp [h3, not_physical_iff hp]

section perm

variable {α β : Type} {f g : α → Option β} {l : List α}

theorem filterMap_length_le (h : ∀ a ∈ l, g a = none ∨ g a = f a) :
    (l.filterMap g).length ≤ (l.filterMap f).length := by
  rw [length_filterMap_eq_countP, length_filterMap_eq_countP]
  exact countP_mono_left fun a ha => by rcases h a ha with e | e <;> simp [e]

/-- Leaving something out of a list of answers shows. -/
theorem filterMap_perm_iff (h : ∀ a ∈ l, g a = none ∨ g a = f a) :
    (l.filterMap f).Perm (l.filterMap g) ↔ ∀ a ∈ l, f a = g a := by
  refine ⟨fun hp a ha => ?_, fun he => by rw [filterMap_congr he]⟩
  by_contra hne
  obtain ⟨b, hb⟩ := ne_none_iff_exists'.1 fun hf => hne (hf.trans ((h a ha).elim id (·.trans hf)).symm)
  have hg := (h a ha).resolve_right fun e => hne e.symm
  obtain ⟨s, t, rfl⟩ := append_of_mem ha
  have hs := filterMap_length_le (l := s) fun x hx => h x (by simp [hx])
  have ht := filterMap_length_le (l := t) fun x hx => h x (by simp [hx])
  have hlen := hp.length_eq
  simp [hb, hg] at hlen
  omega

end perm

theorem framesIn_perm_iff (t : Tables) (a en : Nat) :
    (framesIn freed t a en).Perm (framesIn (fun e => pteIsSysmem e.pte) t a en) ↔
      ∀ q e, a ≤ q → q < en → leaf t q = some e → e.level ≠ 3 →
        pteIsSysmem e.pte = true ∨ e.pte.testBit 9 = true := by
  have hsub : ∀ q ∈ range' a (en - a),
      ((leaf t q).bind fun e => if pteIsSysmem e.pte then some (e.frame q) else none) = none ∨
      ((leaf t q).bind fun e => if pteIsSysmem e.pte then some (e.frame q) else none) =
        (leaf t q).bind fun e => if e.freed then some (e.frame q) else none := by
    intro q _
    cases leaf t q with
    | none => exact .inl rfl
    | some e =>
      simp only [bind_some]
      cases hs : pteIsSysmem e.pte with
      | false => exact .inl rfl
      | true => exact .inr (by rw [freed_of_sysmem hs])
  unfold framesIn
  rw [filterMap_perm_iff hsub]
  constructor
  · intro h q e h1 h2 he
    refine (freed_eq_iff (leaf_present he)).1 ?_
    have hq := h q (mem_range'_1.2 ⟨h1, by omega⟩)
    rw [he, bind_some, bind_some] at hq
    cases hf : e.freed <;> cases hs : pteIsSysmem e.pte <;> rw [hf, hs] at hq <;>
      first | rfl | cases hq
  · intro h q hq
    rw [mem_range'_1] at hq
    cases he : leaf t q with
    | none => rfl
    | some e =>
      rw [bind_some, bind_some, (freed_eq_iff (leaf_present he)).2 (h q e hq.1 (by omega) he)]

/-! ## The call -/

section call

variable {s : St} {addr size : Nat}

section

variable (h : Unmappable s addr size)
include h

theorem Unmappable.pages :
    size / pageSize * pageSize = size := Nat.div_mul_cancel (Nat.dvd_of_mod_eq_zero h.size_aligned)

theorem Unmappable.last : size ≤ lowEnd ∧ ptesFromAddr addr + size / pageSize ≤ 2 ^ 36 := by
  have h2 := h.half
  rw [ptesFromAddr_eq]
  unfold lowEnd w64 pageSize at *
  omega

theorem munmap_eq : munmap s addr size = do
    let w ← munmapLoop size (size / pageSize + 1) (munmapStart s addr)
    let a ← releaseLinear (s.allocator (w.a < lowEnd)) addr size
    return St.setAllocator { s with tables := w.tables, frames := w.freed ++ s.frames }
      (w.a < lowEnd) a := by
  have hround : roundUp ((size + 0) % w64) = size := by
    have := h.last.1
    rw [add_zero, Nat.mod_eq_of_lt (by unfold lowEnd w64 at *; omega),
      roundUp_of_mod h.size_aligned (by unfold lowEnd pageSize w64 at *; omega)]
  unfold munmap
  simp only [h.addr_aligned, Nat.sub_zero, hround]
  refine bind_congr fun w => ?_
  by_cases hl : w.a < lowEnd <;> rfl

theorem loop_rounds : ∃ w, munmapLoop size (size / pageSize + 1) (munmapStart s addr) = .ok w ∧
      w.a = stopAddr s.tables addr size ∧
      w.freed.Perm ((rounds s.tables addr size).flatMap (·.frees s.tables)) ∧
      (∀ q, (∃ r ∈ rounds s.tables addr size, r.Clears s.tables q) → leaf w.tables q = none) ∧
      (∀ q, (¬ ∃ r ∈ rounds s.tables addr size, r.Clears s.tables q) →
        leaf w.tables q = leaf s.tables q) ∧
      (ReadsTables size (size / pageSize + 1) (munmapStart s addr) ↔
        ∀ r ∈ rounds s.tables addr size, r.stale = true →
          present (pteAt s.tables 0 r.page) = true) := by
  have hpages := h.pages
  have hfollows : Follows s.tables (munmapStart s addr) ⟨ptesFromAddr addr, false⟩ :=
    ⟨rfl, rfl, fun _ _ _ _ => rfl⟩
  have hlast := h.last.2
  obtain ⟨w, hw, ha, hf, hc, hr, hread⟩ := munmapLoop_stands addr (size / pageSize + 1)
    hfollows (Ok.start _ _) h.cut hlast
    (le_trans (Nat.le_add_right _ _) (Nat.le_add_right _ _)) (by simp [munmapStart]) (by
      simp only [Nat.sub_self, zero_mul, add_zero]
      exact (Nat.mod_eq_of_lt h.word).symm)
    (by rw [Nat.add_sub_cancel_left]; exact Nat.lt_succ_self _)
  rw [Nat.add_sub_cancel_left, hpages] at hw hread
  refine ⟨w, hw, ha, ?_, hc, hr, hread⟩
  rw [hf, show (munmapStart s addr).freed = [] from rfl, append_nil]
  exact (reverse_perm _).flatMap_right _

end

section answer

variable {w : Walk}
  (hc : ∀ q, (∃ r ∈ rounds s.tables addr size, r.Clears s.tables q) → leaf w.tables q = none)
  (hr : ∀ q, (¬ ∃ r ∈ rounds s.tables addr size, r.Clears s.tables q) →
    leaf w.tables q = leaf s.tables q)
include hc hr

theorem inside_iff (h : Unmappable s addr size) :
    (∀ q, ptesFromAddr addr ≤ q → q < ptesFromAddr addr + size / pageSize →
      translate w.tables q = none) ↔
    ∀ r ∈ rounds s.tables addr size, r.Leaps s.tables →
      r.Passes s.tables (ptesFromAddr addr + size / pageSize) := by
  have hcover := covers_iff (size / pageSize + 1) (Ok.start _ _) h.cut
    (by rw [Nat.add_sub_cancel_left]; exact Nat.lt_succ_self _)
  unfold rounds at ⊢
  rw [← hcover]
  refine forall_congr' fun q => forall_congr' fun _ => forall_congr' fun _ => ?_
  unfold translate
  rw [map_eq_none_iff]
  constructor
  · intro hn hm
    by_contra hnot
    rw [hr q hnot] at hn
    exact hm hn
  · intro hm
    by_cases hex : ∃ r ∈ stands s.tables (ptesFromAddr addr + size / pageSize)
        (size / pageSize + 1) ⟨ptesFromAddr addr, false⟩, r.Clears s.tables q
    · exact hc q hex
    · rw [hr q hex]
      exact not_not.1 fun hmaps => hex (hm hmaps)

theorem outside_same (h : Unmappable s addr size) {q : Nat}
    (hq : ¬ (ptesFromAddr addr ≤ q ∧ q < ptesFromAddr addr + size / pageSize)) :
    leaf w.tables q = leaf s.tables q := by
  by_cases hex : ∃ r ∈ rounds s.tables addr size, r.Clears s.tables q
  · rw [hc q hex]
    obtain ⟨r, hr, hcl⟩ := hex
    symm
    by_contra hm
    exact hq (clears_inside (Ok.start _ _) h.cut hr hm hcl)
  · exact hr q hex

end answer

/-- The rounds release the pages of the range that pass their tests. -/
theorem rounds_frees (h : Unmappable s addr size)
    (hpass : ∀ r ∈ rounds s.tables addr size, r.Leaps s.tables →
      r.Passes s.tables (ptesFromAddr addr + size / pageSize))
    (hread : ∀ r ∈ rounds s.tables addr size, r.stale = true →
      present (pteAt s.tables 0 r.page) = true) :
    (rounds s.tables addr size).flatMap (·.frees s.tables) =
      framesIn freed s.tables (ptesFromAddr addr) (ptesFromAddr addr + size / pageSize) := by
  unfold rounds at ⊢
  rw [frees_eq (Ok.start _ _) h.cut
    (by rw [Nat.add_sub_cancel_left]; exact Nat.lt_succ_self _) hread hpass]
  congr 1
  unfold base
  split_ifs with hg
  · obtain ⟨hm, hs⟩ := kind_giant hg.2
    obtain ⟨h0, h1, -⟩ := ptesPresent_three.1 hm
    have hin := (h.cut _ _ le_rfl hg.1 (leaf_giant h0 h1 hs)).1
    rw [show pages ⟨1, pteAt s.tables 1 (ptesFromAddr addr)⟩ = 2 ^ 18 from rfl] at hin
    simp only at ⊢
    omega
  · rfl

/-- Whatever the tables and the range, the call unmaps exactly under `Sound`. -/
theorem unmap_right_iff (h : Unmappable s addr size) :
    Unmaps s addr size ↔ Sound s.tables addr size := by
  obtain ⟨w, hw, ha, hf, hc, hr, hread⟩ := loop_rounds h
  obtain ⟨a, hrel, hne⟩ := h.held
  have hin := inside_iff hc hr h
  unfold Unmaps
  rw [hread, munmap_eq h, ok_bind hw]
  constructor
  · rintro ⟨hthere, s', hs', hu⟩
    obtain ⟨a', hrel', hs'⟩ := bind_eq_ok hs'
    cases hs'
    have hpass := hin.1 fun q h1 h2 => by simpa using hu.inside q h1 h2
    refine ⟨hpass, hthere, ?_, ?_⟩
    · have hp := hu.released
      rw [frames_setAllocator, perm_append_right_iff] at hp
      rw [← framesIn_perm_iff, ← rounds_frees h hpass hthere]
      exact hf.symm.trans hp
    · rw [← ha]
      by_contra hstop
      have hnot : decide (addr < lowEnd) = ! decide (w.a < lowEnd) := by
        rw [← decide_not]
        exact decide_eq_decide.2 (by tauto)
      have howner := hu.owner
      rw [hrel, hnot, allocator_setAllocator_not] at howner
      rw [hnot] at hne
      exact hne (Except.ok.inj howner)
  · rintro ⟨hpass, hthere, hlarge, hstop⟩
    rw [← ha] at hstop
    have hlow : decide (w.a < lowEnd) = decide (addr < lowEnd) := decide_eq_decide.2 hstop
    refine ⟨hthere, _, by rw [hlow, ok_bind hrel]; rfl, ?_, ?_, ?_, ?_, ?_⟩
    · intro q h1 h2
      rw [tables_setAllocator]
      exact hin.2 hpass q h1 h2
    · intro q hq
      rw [tables_setAllocator]
      exact outside_same hc hr h hq
    · rw [frames_setAllocator, perm_append_right_iff]
      refine hf.trans ?_
      rw [rounds_frees h hpass hthere]
      exact (framesIn_perm_iff _ _ _).2 hlarge
    · rw [allocator_setAllocator, hrel]
    · rw [allocator_setAllocator_not]
      rfl

end call

/-- A range that is not free in a proper allocator is one that it takes back. -/
theorem held_of_releasable {a : Alloc} {addr size : Nat} (hs : a.Swapped)
    (hsep : Sep a.freeAddrByAddr)
    (hrel : Releasable a.freeAddrByAddr addr size) :
    ∃ a', releaseLinear a addr size = .ok a' ∧ a' ≠ a := by
  obtain ⟨free, hok, -, hfree⟩ := releaseLinear_spec hs hsep hrel
  refine ⟨_, hok, fun he => ?_⟩
  have hpos := hrel.pos
  have hmem := (hfree addr).2 (.inr ⟨le_rfl, by omega⟩)
  rw [show free = a.freeAddrByAddr from congrArg Alloc.freeAddrByAddr he] at hmem
  obtain ⟨i, hi, h1, h2⟩ := hmem
  have := hrel.apart i hi
  omega

/-- One page of the process is mapped, at `0x600000`, and the page table before it is missing. -/
def gap : St where
  tables level i :=
    if level < 2 ∧ i = 0 ∨ level = 2 ∧ i = 3 then 7
    else if level = 3 ∧ i = 0x600 then 0x5007
    else 0
  frames := []
  zerosPage := 0x1000
  process := ContigAlloc.init 0x1000000 0x100000
  linear := ContigAlloc.init 0xffff900000000000 0x100000

theorem isPageSize_gap (level i : Nat) : isPageSize (gap.tables level i) = false := by
  unfold gap
  simp only
  split
  · rfl
  · split <;> rfl

theorem leaf_gap {q : Nat} (h : leaf gap.tables q = some e) : e.level = 3 := by
  unfold leaf at h
  rw [show isPageSize (pteAt gap.tables 1 q) = false from isPageSize_gap _ _,
    show isPageSize (pteAt gap.tables 2 q) = false from isPageSize_gap _ _] at h
  simp only [Bool.false_eq_true, if_false] at h
  split_ifs at h
  cases h
  rfl

theorem unmappable_gap (addr size : Nat) (ha : addr % pageSize = 0) (hs : size % pageSize = 0)
    (hpos : 0 < size) (hend : addr + size ≤ 0x1000000) : Unmappable gap addr size where
  word := by unfold w64; omega
  addr_aligned := ha
  size_aligned := hs
  half := .inl (by unfold lowEnd; omega)
  cut q e h1 h2 he := by
    have hone : e.pages = 1 := by
      rw [pages, shift, leaf_gap he]
      rfl
    rw [hone, Nat.div_one, mul_one]
    exact ⟨h1, h2⟩
  held := by
    rw [decide_eq_true (show addr < lowEnd by unfold lowEnd; omega)]
    refine held_of_releasable (by decide +kernel)
      (Sep.empty.insert (by decide) (by decide) (by simp)) ⟨hpos, ?_, ?_⟩
    · unfold w64
      omega
    · intro i hi
      obtain rfl : i = ⟨0x1000000, 0x100000⟩ := by
        rcases OrdSet.mem_insert.1 hi with rfl | hi
        · rfl
        · cases hi
      exact .inr hend

theorem unmap_right_gap : Unmappable gap 0x600000 0x1000 ∧ Unmaps gap 0x600000 0x1000 := by
  have h := unmappable_gap 0x600000 0x1000 rfl rfl (by decide) (by decide)
  have hrounds : rounds gap.tables 0x600000 0x1000 = [⟨0x600, false⟩] := by decide
  refine ⟨h, (unmap_right_iff h).2 ⟨fun r hr => ?_, fun r hr => ?_, fun q e _ _ he h3 => ?_, ?_⟩⟩
  · rw [hrounds, mem_singleton] at hr
    subst hr
    rintro (hk | hk) <;> exact absurd hk (by decide)
  · rw [hrounds, mem_singleton] at hr
    subst hr
    exact fun hc => absurd hc (by decide)
  · exact absurd (leaf_gap he) h3
  · decide

/-- The range of 4 MB at `0x400000` contains a mapped page, and the first round passes over it. -/
theorem mapping_left_behind :
    Unmappable gap 0x400000 0x400000 ∧ ¬ Unmaps gap 0x400000 0x400000 := by
  have h := unmappable_gap 0x400000 0x400000 rfl rfl (by decide) (by decide)
  refine ⟨h, ?_⟩
  rintro ⟨-, s', hs', hu⟩
  obtain ⟨w, hw, -, -, -, hr, -⟩ := loop_rounds h
  rw [munmap_eq h, ok_bind hw] at hs'
  obtain ⟨a, -, hs'⟩ := bind_eq_ok hs'
  cases hs'
  have hrounds : rounds gap.tables 0x400000 0x400000 = [⟨0x400, false⟩] := by decide
  have hleft : leaf w.tables 0x600 = leaf gap.tables 0x600 := hr 0x600 (by
    rw [hrounds]
    rintro ⟨r, hr, hc⟩
    rw [mem_singleton] at hr
    subst hr
    exact hc)
  have hin := hu.inside 0x600 (by decide) (by decide)
  rw [tables_setAllocator, translate, hleft] at hin
  exact absurd hin (by decide)

end Dgos.L2.PageTable
