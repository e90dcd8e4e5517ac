import Dgos.Core.Bits
import Dgos.L2Memory.ContigAllocInv

/-!
# Huge page mappings in `mmap` (kernel/arch/x86_64/cpu/mmu.cc)

With `MAP_HUGETLB`, `mmap` allocates `len + alignment` bytes of address space, rounds the
start up and gives the unused head and tail back. The tail is computed as
`len + alignment - used_end`, without the start of the block, so it is not the unused part but
a range that ends behind the top of the address space.

Modelled is what the call does to the address space allocator, for a physical mapping
(`MAP_PHYSICAL`) by the kernel; the page tables are left out.

Results:
* `mmapHuge_never`: whatever the free ranges and the length, a call never removes exactly the
  range it returns from the free space.
* `mmapHuge_frees_top`: a call after which the last address of the address space is free.
-/
namespace Dgos.L2.ContigAlloc

open Nat

/-! ## The call -/

def fourK : Nat := 2 ^ 12

def twoMB : Nat := 2 ^ 21

def oneGB : Nat := 2 ^ 30

/-- mirrors kernel/arch/mmu.h:257-260 -/
def roundUp (n : Nat) : Nat := maskNeg 64 ((n + (pageSize - 1)) % w64) pageSize

/-- mirrors mmu.cc:2231-2240 -/
def hugeAlignment (paddr : Nat) : Nat :=
  if paddr = maskNeg 64 paddr oneGB then oneGB
  else if paddr = maskNeg 64 paddr twoMB then twoMB
  else fourK

/-- mirrors mmu.cc:2248 -/
def alignedStart (linearAddr alignment : Nat) : Nat :=
  maskNeg 64 ((linearAddr + (alignment - 1)) % w64) alignment

/-- mirrors mmu.cc:2255-2256, 2258-2259 -/
def releaseUnused (a : Alloc) (addr size : Nat) : Except Err Alloc :=
  if size = 0 then pure a else releaseLinear a addr size

/-- The address space of a huge mapping of `len` bytes.
mirrors mmu.cc:2244-2261, 2282 -/
def hugeLinear (a : Alloc) (len alignment : Nat) : Except Err (Nat × Alloc) := do
  let (linearAddr, a) ← allocLinear a ((len + alignment) % w64)
  let start := alignedStart linearAddr alignment
  let usedEnd := (start + len) % w64
  let a ← releaseUnused a linearAddr (sub64 start linearAddr)
  let a ← releaseUnused a usedEnd (sub64 ((len + alignment) % w64) usedEnd)
  assert (0x100000 < start)
  pure (start, a)

/-- mirrors mmu.cc:2205-2208 -/
def hugeLen (addr len : Nat) : Nat := roundUp ((len + addr % pageSize) % w64)

/-- mirrors mmu.cc:2205-2263, 2534 -/
def mmapHuge (a : Alloc) (addr len : Nat) : Except Err (Nat × Alloc) := do
  let paddr := addr - addr % pageSize
  let alignment := hugeAlignment paddr
  let misalignment := paddr &&& (alignment - 1)
  let (linearAddr, a) ← hugeLinear a (hugeLen addr len) alignment
  pure ((linearAddr + misalignment) % w64, a)

/-! ## What the call should do -/

/-- A free map of the kernel: both trees agree, and 0 is not an address of it. -/
structure Wf (a : Alloc) : Prop where
  ready : a.ready = true
  swapped : a.freeAddrBySize = swapSet a.freeAddrByAddr
  sep : Sep a.freeAddrByAddr
  pos : ∀ i ∈ a.freeAddrByAddr, 0 < i.first

/-- The space `[start, start + len)` was free, and is all that is not free any more. -/
structure Removes (a a' : Alloc) (start len : Nat) : Prop where
  inside : ∀ x, start ≤ x → x < start + len → Free a.freeAddrByAddr x
  exact : ∀ x < w64, Free a'.freeAddrByAddr x ↔
    Free a.freeAddrByAddr x ∧ ¬ (start ≤ x ∧ x < start + len)

/-! ## Alignment -/

/-- The address is aligned to the page size that is chosen for it, and to no larger one. -/
theorem hugeAlignment_eq {paddr : Nat} (hlt : paddr < w64) (h : paddr % pageSize = 0) :
    ∃ k, 12 ≤ k ∧ k ≤ 30 ∧ hugeAlignment paddr = 2 ^ k ∧ paddr % 2 ^ k = 0 ∧
      (paddr % 2 ^ 30 = 0 → k = 30) ∧ (paddr % 2 ^ 21 = 0 → k = 30 ∨ k = 21) := by
  have hmask : ∀ k ≤ 64, paddr = maskNeg 64 paddr (2 ^ k) ↔ paddr % 2 ^ k = 0 := fun k hk =>
    eq_maskNeg_iff hlt hk
  unfold hugeAlignment
  split
  · rename_i h30
    exact ⟨30, by decide, by decide, rfl, (hmask 30 (by decide)).1 h30, fun _ => rfl,
      fun _ => .inl rfl⟩
  · rename_i h30
    have hno30 := mt (hmask 30 (by decide)).2 h30
    split_ifs with h21
    · exact ⟨21, by decide, by decide, rfl, (hmask 21 (by decide)).1 h21, fun hc => absurd hc hno30,
        fun _ => .inr rfl⟩
    · exact ⟨12, by decide, by decide, rfl, h, fun hc => absurd hc hno30,
        fun hc => absurd hc (mt (hmask 21 (by decide)).2 h21)⟩

theorem alignedStart_mod {k : Nat} (hk : k ≤ 64) (x : Nat) : alignedStart x (2 ^ k) % 2 ^ k = 0 := by
  have hlt : (x + (2 ^ k - 1)) % w64 < 2 ^ 64 := mod_lt _ (by decide)
  unfold alignedStart
  rw [maskNeg_two_pow hlt hk, mul_mod_left]

theorem alignedStart_lt (x al : Nat) : alignedStart x al < w64 :=
  lt_of_le_of_lt and_le_left (mod_lt _ (by decide))

theorem roundUp_mod (n : Nat) : roundUp n % pageSize = 0 := alignedStart_mod (k := 12) (by omega) n

/-- The first multiple of the alignment at or above `x`. -/
theorem alignedStart_bounds {k x : Nat} (hk : k ≤ 64) (hx : x + 2 ^ k ≤ w64) :
    x ≤ alignedStart x (2 ^ k) ∧ alignedStart x (2 ^ k) < x + 2 ^ k := by
  have hpos := Nat.two_pow_pos k
  have hmod : (x + (2 ^ k - 1)) % w64 = x + (2 ^ k - 1) := mod_eq_of_lt (by omega)
  unfold alignedStart
  rw [hmod, maskNeg_two_pow (show x + (2 ^ k - 1) < 2 ^ 64 from by unfold w64 at hx; omega) hk]
  have hdiv := div_add_mod (x + (2 ^ k - 1)) (2 ^ k)
  rw [mul_comm] at hdiv
  omega

theorem alignedStart_zero {k : Nat} (hk : k ≤ 64) : alignedStart 0 (2 ^ k) = 0 := by
  have hb := (alignedStart_bounds hk (by rw [zero_add]; exact Nat.pow_le_pow_right (by omega) hk)).2
  rw [zero_add] at hb
  rw [← mod_eq_of_lt hb, alignedStart_mod hk]

/-! ## No call is right -/

theorem Sep.not_free_top {s : OrdSet Item} (h : Sep s) : ¬ Free s (w64 - 1) := by
  rintro ⟨i, hi, -, hx⟩
  have := h.bound i hi
  omega

theorem hugeLinear_eq_ok {a a' : Alloc} {len al start : Nat}
    (h : hugeLinear a len al = .ok (start, a')) :
    ∃ linearAddr a1 a2, allocLinear a ((len + al) % w64) = .ok (linearAddr, a1) ∧
      start = alignedStart linearAddr al ∧ 0x100000 < start ∧
      releaseUnused a1 linearAddr (sub64 start linearAddr) = .ok a2 ∧
      releaseUnused a2 ((start + len) % w64)
        (sub64 ((len + al) % w64) ((start + len) % w64)) = .ok a' := by
  obtain ⟨⟨linearAddr, a1⟩, h1, h⟩ := bind_eq_ok h
  obtain ⟨a2, h2, h⟩ := bind_eq_ok h
  obtain ⟨a3, h3, h⟩ := bind_eq_ok h
  obtain ⟨u, h4, h⟩ := bind_eq_ok h
  cases h
  exact ⟨linearAddr, a1, a2, h1, rfl, assert_eq_ok h4, h2, h3⟩

theorem releaseUnused_head {a a' : Alloc} (hs : a.Swapped)
    (h : Sep a.freeAddrByAddr) {addr size : Nat} (hb : addr + size < w64)
    (hno : ∀ x, addr ≤ x → x < addr + size → ¬ Free a.freeAddrByAddr x)
    (he : releaseUnused a addr size = .ok a') : a'.Swapped ∧ Sep a'.freeAddrByAddr ∧
      ∀ x, Free a'.freeAddrByAddr x ↔ Free a.freeAddrByAddr x ∨ (addr ≤ x ∧ x < addr + size) := by
  unfold releaseUnused at he
  split_ifs at he with h0
  · cases he
    exact ⟨hs, h, fun x => by exact ⟨.inl, fun hx => hx.resolve_right (by omega)⟩⟩
  · have hrel : Releasable a.freeAddrByAddr addr size := by
      refine ⟨by omega, hb, fun i hi => ?_⟩
      by_contra hc
      have hpos := h.pos i hi
      exact hno (max addr i.first) (by omega) (by omega) ⟨i, hi, by omega, by omega⟩
    obtain ⟨s, hok, hsep, hfree⟩ := releaseLinear_spec hs h hrel
    rw [hok] at he
    cases he
    exact ⟨rfl, hsep, hfree⟩

/-- A range that reaches over the top of the address space is filed as it is. -/
theorem releaseLinear_over_top {a : Alloc} (hs : a.Swapped)
    (h : Sep a.freeAddrByAddr) (addr size : Nat) (htop : w64 ≤ addr + size)
    (hbelow : ∀ i ∈ a.freeAddrByAddr, i.first + i.second < addr ∨ addr < i.first)
    (hend : (addr + size) % w64 ≤ addr) :
    releaseLinear a addr size = .ok (a.withFree (a.freeAddrByAddr.insert ⟨addr, size⟩).1) := by
  have hr : (⟨addr, size⟩ : Item) ∉ a.freeAddrByAddr := fun hm => by
    have := h.bound _ hm
    simp only at this
    omega
  unfold releaseLinear
  rw [assert_bind (by rw [hs, size_swapSet]), if_neg hr]
  refine releaseNew_alone hs hr (fun p hp hlt => ?_) fun q hq hlt => ?_
  · have h1 := hbelow p hp
    rw [mod_eq_of_lt (h.bound p hp)]
    rw [Item.lt_iff] at hlt
    simp only at *
    omega
  · have h1 := hbelow q hq
    rw [Item.lt_iff] at hlt
    simp only at *
    omega

theorem hugeLinear_never {a a' : Alloc} (hwf : Wf a) {len k start : Nat} (hk : 12 ≤ k) (hk' : k ≤ 30)
    (hlen : len % pageSize = 0) (hpos : 0 < len) (h : hugeLinear a len (2 ^ k) = .ok (start, a')) :
    ¬ Removes a a' start len := by
  intro hrem
  obtain ⟨linearAddr, a1, a2, halloc, hstart, hlow, hhead, htail⟩ := hugeLinear_eq_ok h
  have hmod : start % 2 ^ k = 0 := by rw [hstart]; exact alignedStart_mod (by omega) _
  have hlt : start < w64 := by rw [hstart]; exact alignedStart_lt _ _
  have hge : 2 ^ k ≤ start := le_of_dvd (by omega) (dvd_of_mod_eq_zero hmod)
  -- a length so large that the block wraps is not free from any start
  have hsum : start + len < w64 := by
    by_contra hc
    exact hwf.sep.not_free_top (hrem.inside (w64 - 1) (by omega) (by omega))
  have htotal : (len + 2 ^ k) % w64 = len + 2 ^ k := mod_eq_of_lt (by omega)
  have hpage : (len + 2 ^ k) % pageSize = 0 := by
    have : 2 ^ k % 2 ^ 12 = 0 := mod_eq_zero_of_dvd (pow_dvd_pow 2 hk)
    unfold pageSize at *
    omega
  rw [htotal] at halloc htail
  rcases allocLinear_spec hwf.ready hwf.swapped hwf.sep hpage with ⟨he, -⟩ | ⟨i, hi, hsize, he⟩
  · rw [he] at halloc
    cases halloc
    rw [alignedStart_zero (by omega)] at hstart
    omega
  · rw [he] at halloc
    cases halloc
    have hib := hwf.sep.bound i hi
    obtain ⟨hle, hup⟩ : i.first ≤ start ∧ start < i.first + 2 ^ k := by
      rw [hstart]; exact alignedStart_bounds (by omega) (by omega)
    have hfree := free_takeFront hwf.sep hi hsize
    rw [sub64_eq hle hlt] at hhead
    obtain ⟨hs2, hsep2, hfree2⟩ := releaseUnused_head rfl (hwf.sep.takeFront hi)
      (by omega) (fun x h1 h2 hf => ((hfree x).1 hf).2 (by omega)) hhead
    have hnot2 : ∀ x, start ≤ x → x < i.first + (len + 2 ^ k) → ¬ Free a2.freeAddrByAddr x := by
      intro x h1 h2 hf
      rw [hfree2] at hf
      rcases hf with hf | hf
      · exact ((hfree x).1 hf).2 (by omega)
      · omega
    rw [mod_eq_of_lt hsum] at htail
    rcases eq_or_lt_of_le hge with heq | hgt
    · -- the tail has size 0: it is lost
      have h0 : sub64 (len + 2 ^ k) (start + len) = 0 := by
        rw [sub64_eq (by omega) (by omega)]; omega
      rw [h0] at htail
      cases htail
      have hx := (hrem.exact (start + len) hsum).2 ⟨⟨i, hi, by omega, by omega⟩, by omega⟩
      exact hnot2 _ (by omega) (by omega) hx
    · -- the tail reaches over the top
      have hT : sub64 (len + 2 ^ k) (start + len) = w64 + 2 ^ k - start := by
        unfold sub64
        rw [mod_eq_of_lt (by omega)]
        omega
      have hne : w64 + 2 ^ k - start ≠ 0 := by omega
      have hover := releaseLinear_over_top hs2 hsep2 (start + len) (w64 + 2 ^ k - start) (by omega)
        (fun j hj => by
          by_contra hc
          have hjpos := hsep2.pos j hj
          exact hnot2 (max start j.first) (by omega) (by omega) ⟨j, hj, by omega, by omega⟩)
        (by
          have : start + len + (w64 + 2 ^ k - start) = len + 2 ^ k + w64 := by omega
          rw [this, add_mod_right]
          omega)
      rw [hT, releaseUnused, if_neg hne, hover] at htail
      cases htail
      refine hwf.sep.not_free_top ((hrem.exact (w64 - 1) (by decide)).1 ?_).1
      exact free_insert.2 (.inl (by simp only; omega))

theorem mmapHuge_never (a : Alloc) (hwf : Wf a) (addr len : Nat) (haddr : addr < w64)
    (hpos : 0 < hugeLen addr len) :
    ¬ ∃ start a', mmapHuge a addr len = .ok (start, a') ∧ Removes a a' start (hugeLen addr len) := by
  rintro ⟨start, a', h, hrem⟩
  have hpage : (addr - addr % pageSize) % pageSize = 0 := by
    unfold pageSize
    omega
  obtain ⟨k, hk, hk', hal, hmod, -⟩ := hugeAlignment_eq (by omega) hpage
  have hmis : (addr - addr % pageSize) &&& (2 ^ k - 1) = 0 := by
    rw [and_two_pow_sub_one_eq_mod, hmod]
  unfold mmapHuge at h
  simp only [hal, hmis, add_zero] at h
  obtain ⟨⟨start', a1⟩, h1, h2⟩ := bind_eq_ok h
  have hlt : start' < w64 := by
    obtain ⟨linearAddr, -, -, -, hs, -⟩ := hugeLinear_eq_ok h1
    rw [hs]; exact alignedStart_lt _ _
  cases h2
  rw [mod_eq_of_lt hlt] at hrem
  exact hugeLinear_never hwf hk hk' (roundUp_mod _) hpos h1 hrem

/-- One free range of 1 TiB in the upper half. -/
def sampleFree : Alloc := init 0xffff800000000000 0x10000000000

theorem sampleFree_wf : Wf sampleFree where
  ready := rfl
  swapped := by decide +kernel
  sep := Sep.empty.insert (by decide) (by decide) (by simp)
  pos := by decide +kernel

theorem mmapHuge_never_sample : Wf sampleFree ∧ 0 < hugeLen 0x40200000 0x300000 ∧
    ¬ ∃ start a', mmapHuge sampleFree 0x40200000 0x300000 = .ok (start, a') ∧
      Removes sampleFree a' start (hugeLen 0x40200000 0x300000) :=
  ⟨sampleFree_wf, by decide +kernel,
    mmapHuge_never sampleFree sampleFree_wf 0x40200000 0x300000 (by decide) (by decide +kernel)⟩

/-- Three megabytes at a multiple of 2 MiB: the range that is given back as the tail starts
behind the mapping and goes on to the end of the address space. -/
theorem mmapHuge_frees_top : ∃ a', mmapHuge sampleFree 0x40200000 0x300000 =
      .ok (0xffff800000000000, a') ∧
    a'.freeAddrByAddr.items = [⟨0xffff800000300000, 0x800000200000⟩,
      ⟨0xffff800000500000, 0xffffb00000⟩] ∧
    Free a'.freeAddrByAddr (2 ^ 64 - 1) ∧ ¬ Free sampleFree.freeAddrByAddr (2 ^ 64 - 1) := by
  have h : (mmapHuge sampleFree 0x40200000 0x300000).toOption.map
      (fun r => (r.1, r.2.freeAddrByAddr.items)) =
      some (0xffff800000000000, [⟨0xffff800000300000, 0x800000200000⟩,
        ⟨0xffff800000500000, 0xffffb00000⟩]) := by decide +kernel
  obtain ⟨⟨start, a'⟩, he, h⟩ := ok_of_map h
  obtain ⟨rfl, hitems⟩ := Prod.mk.inj h
  refine ⟨a', he, hitems, ?_, sampleFree_wf.sep.not_free_top⟩
  have hm : (⟨0xffff800000300000, 0x800000200000⟩ : Item) ∈ a'.freeAddrByAddr := by
    rw [← OrdSet.mem_items, hitems]; exact List.mem_cons_self
  exact ⟨_, hm, by decide, by decide⟩

end Dgos.L2.ContigAlloc
