import Dgos.L2Memory.ContigAllocInv

/-!
# Runs of the linear address allocator

A run is a list of calls after `init`; `held` is the address space that the callers hold:
an allocated block is added when the call answers with an address, a released range is cut
out, wherever it lies in the held space. An answer of 0 is a failure to the caller.

Results:
* `run_partition`: in every run over a range that does not start at 0 nor end at `2 ^ 64`, no
  assertion fails, the free and the held space divide the range, and `alloc_linear` answers 0
  only without a change and when no free range is large enough.
* `run_rejoins`: over such a range, when all is released, both trees have one range again.
* `alloc_zero`: the range at address 0 is handed out with the answer 0.
-/
namespace Dgos.L2.ContigAlloc

inductive Op where
  | alloc (size : Nat)
  | release (addr size : Nat)

structure St where
  alloc : Alloc
  held : List Range

def St.init (base size : Nat) : St := ⟨ContigAlloc.init base size, []⟩

def step (s : St) : Op → Except Err St
  | .alloc size => do
    let (addr, a) ← allocLinear s.alloc size
    pure ⟨a, if addr = 0 then s.held else (addr, size) :: s.held⟩
  | .release addr size => do
    let a ← releaseLinear s.alloc addr size
    pure ⟨a, cut s.held (addr, size)⟩

def run (s : St) : List Op → Except Err St
  | [] => pure s
  | op :: ops => do
    let s ← step s op
    run s ops

/-- Sizes are page multiples, and only held space is released. -/
def Meets (s : St) : Op → Prop
  | .alloc size => 0 < size ∧ size % pageSize = 0
  | .release addr size => 0 < size ∧ addr % pageSize = 0 ∧ size % pageSize = 0 ∧
    ∀ x, Range.Mem (addr, size) x → Covers s.held x

def AllMeet (s : St) : List Op → Prop
  | [] => True
  | op :: ops => Meets s op ∧ ∀ s', step s op = .ok s' → AllMeet s' ops

/-! ## The state -/

/-- The free and the held space divide `[base, base + size)`. -/
structure Good (base size : Nat) (s : St) : Prop where
  ready : s.alloc.ready = true
  cover : ∀ x, Free s.alloc.freeAddrByAddr x ∨ Covers s.held x ↔ base ≤ x ∧ x < base + size
  disjoint : ∀ x, Free s.alloc.freeAddrByAddr x → ¬ Covers s.held x
  swapped : s.alloc.freeAddrBySize = swapSet s.alloc.freeAddrByAddr
  sep : Sep s.alloc.freeAddrByAddr

variable {base size n : Nat} {s : St}

theorem Good.init (hb : base + size < w64) : Good base size (.init base size) := by
  by_cases h0 : size = 0
  · subst h0
    refine ⟨rfl, fun x => ?_, fun x hx => ?_, rfl, Sep.empty⟩
    · simp [St.init, ContigAlloc.init, Free]
    · simp [St.init, ContigAlloc.init, Free] at hx
  · have hs : (ContigAlloc.init base size).freeAddrByAddr = (OrdSet.empty.insert ⟨base, size⟩).1 :=
      if_neg h0
    have hs' : (ContigAlloc.init base size).freeAddrBySize = (OrdSet.empty.insert ⟨size, base⟩).1 :=
      if_neg h0
    have hfree : ∀ x, Free (ContigAlloc.init base size).freeAddrByAddr x ↔
        base ≤ x ∧ x < base + size := fun x => by rw [hs]; simp [Free]
    refine ⟨rfl, fun x => ?_, fun x _ => covers_nil, ?_, ?_⟩
    · rw [St.init, hfree]; simp
    · rw [St.init, hs, hs']; rfl
    · rw [St.init, hs]
      exact Sep.empty.insert (Nat.pos_of_ne_zero h0) hb (by simp)

section Good

variable (h : Good base size s)
include h

/-! ## Steps -/

theorem Good.step_release (hb : base + size < w64) {addr : Nat} (hpos : 0 < n)
    (hheld : ∀ x, Range.Mem (addr, n) x → Covers s.held x) :
    ∃ s', step s (.release addr n) = .ok s' ∧ Good base size s' := by
  have hnot : ∀ x, addr ≤ x → x < addr + n → ¬ Free s.alloc.freeAddrByAddr x :=
    fun x h1 h2 hf => h.disjoint x hf (hheld x ⟨h1, h2⟩)
  have hin : ∀ x, addr ≤ x → x < addr + n → base ≤ x ∧ x < base + size :=
    fun x h1 h2 => (h.cover x).1 (.inr (hheld x ⟨h1, h2⟩))
  have hrel : Releasable s.alloc.freeAddrByAddr addr n := by
    have hlast := hin (addr + n - 1) (by omega) (by omega)
    refine ⟨hpos, by omega, fun i hi => ?_⟩
    -- a common address would be free and held
    by_contra hc
    have hipos := h.sep.pos i hi
    exact hnot (max addr i.first) (by omega) (by omega) ⟨i, hi, by omega, by omega⟩
  obtain ⟨t, he, hsep, hfree⟩ := releaseLinear_spec h.swapped h.sep hrel
  refine ⟨_, ok_bind he _, h.ready, fun x => ?_, fun x hx => ?_, rfl, hsep⟩
  · rw [hfree x, covers_cut, ← h.cover x]
    tauto
  · rw [hfree x] at hx
    rw [covers_cut]
    rintro ⟨hc, hm⟩
    exact hx.elim (fun hf => h.disjoint x hf hc) hm

variable (hbase : 0 < base)
include hbase

/-- `alloc_linear` answers 0 when no free range is large enough, without a change; any other
answer is the start of space that was free. -/
theorem Good.allocLinear (hpage : n % pageSize = 0) :
    ∃ addr a, allocLinear s.alloc n = .ok (addr, a) ∧
      (addr = 0 → a = s.alloc ∧ ∀ i ∈ s.alloc.freeAddrByAddr, i.second < n) ∧
      (addr ≠ 0 → ∃ i ∈ s.alloc.freeAddrByAddr, addr = i.first ∧ n ≤ i.second ∧
        a = s.alloc.withFree (takeFront s.alloc.freeAddrByAddr i n)) := by
  rcases allocLinear_spec h.ready h.swapped h.sep hpage with ⟨he, hno⟩ | ⟨i, hi, hn, he⟩
  · exact ⟨0, s.alloc, he, fun _ => ⟨rfl, hno⟩, absurd rfl⟩
  · have hpos := h.sep.pos i hi
    have hge := ((h.cover i.first).1 (.inl ⟨i, hi, le_rfl, by omega⟩)).1
    have hne : i.first ≠ 0 := by omega
    exact ⟨i.first, _, he, fun hc => absurd hc hne, fun _ => ⟨i, hi, rfl, hn, rfl⟩⟩

theorem Good.step_alloc (hpage : n % pageSize = 0) :
    ∃ s', step s (.alloc n) = .ok s' ∧ Good base size s' := by
  obtain ⟨addr, a, he, hzero, hnz⟩ := h.allocLinear hbase hpage
  refine ⟨_, ok_bind he _, ?_⟩
  by_cases h0 : addr = 0
  · rw [if_pos h0, (hzero h0).1]; exact h
  obtain ⟨i, hi, rfl, hn, rfl⟩ := hnz h0
  rw [if_neg h0]
  have hfree := free_takeFront h.sep hi hn
  refine ⟨h.ready, fun x => ?_, fun x hx => ?_, rfl, h.sep.takeFront hi⟩
  · have hmem : i.first ≤ x ∧ x < i.first + n → Free s.alloc.freeAddrByAddr x :=
      fun hx => ⟨i, hi, hx.1, by omega⟩
    rw [covers_cons, hfree x, ← h.cover x]
    unfold Range.Mem
    tauto
  · rw [hfree x] at hx
    rw [covers_cons]
    exact fun hc => hc.elim hx.2 (h.disjoint x hx.1)

theorem Good.step (hb : base + size < w64) {op : Op} (hm : Meets s op) :
    ∃ s', step s op = .ok s' ∧ Good base size s' := by
  cases op with
  | alloc n => exact h.step_alloc hbase hm.2
  | release addr n => exact h.step_release hb hm.1 hm.2.2.2

/-! ## Runs -/

theorem Good.run (hb : base + size < w64) {ops : List Op} (hm : AllMeet s ops) :
    ∃ s', run s ops = .ok s' ∧ Good base size s' := by
  induction ops generalizing s with
  | nil => exact ⟨s, rfl, h⟩
  | cons op ops ih =>
    obtain ⟨s1, he, h1⟩ := h.step hbase hb hm.1
    obtain ⟨s2, he2, h2⟩ := ih h1 (hm.2 s1 he)
    exact ⟨s2, (ok_bind he _).trans he2, h2⟩

/-- What callers can rely on in a state. -/
structure Sound (base size : Nat) (s : St) : Prop where
  cover : ∀ x, Free s.alloc.freeAddrByAddr x ∨ Covers s.held x ↔ base ≤ x ∧ x < base + size
  disjoint : ∀ x, ¬ (Free s.alloc.freeAddrByAddr x ∧ Covers s.held x)
  swapped : ∀ i, i ∈ s.alloc.freeAddrBySize ↔ i.swap ∈ s.alloc.freeAddrByAddr
  pos : ∀ i ∈ s.alloc.freeAddrByAddr, 0 < i.second
  gap : ∀ i ∈ s.alloc.freeAddrByAddr, ∀ j ∈ s.alloc.freeAddrByAddr, i ≠ j →
    i.first + i.second < j.first ∨ j.first + j.second < i.first
  valid : validateLocked s.alloc = true
  alloc : ∀ n, 0 < n → n % pageSize = 0 → ∃ addr a, allocLinear s.alloc n = .ok (addr, a) ∧
    (addr = 0 → a = s.alloc ∧ ∀ i ∈ s.alloc.freeAddrByAddr, i.second < n) ∧
    (addr ≠ 0 → ∀ x, Range.Mem (addr, n) x →
      Free s.alloc.freeAddrByAddr x ∧ ¬ Free a.freeAddrByAddr x ∧ ¬ Covers s.held x)

theorem Good.sound : Sound base size s := by
  refine ⟨h.cover, fun x hx => h.disjoint x hx.1 hx.2, fun i => by rw [h.swapped, mem_swapSet],
    h.sep.pos, h.sep.apart, validateLocked_of_sep h.swapped h.sep, fun n _ hpage => ?_⟩
  obtain ⟨addr, a, he, hzero, hnz⟩ := h.allocLinear hbase hpage
  refine ⟨addr, a, he, hzero, fun h0 x hx => ?_⟩
  obtain ⟨i, hi, rfl, hn, rfl⟩ := hnz h0
  have hx' : i.first ≤ x ∧ x < i.first + n := hx
  have hf : Free s.alloc.freeAddrByAddr x := ⟨i, hi, hx'.1, by omega⟩
  refine ⟨hf, fun hc => ?_, h.disjoint x hf⟩
  rw [free_takeFront h.sep hi hn] at hc
  exact hc.2 hx'

end Good

theorem run_partition (base size : Nat) (hbase : 0 < base) (hb : base + size < w64) (ops : List Op)
    (hm : AllMeet (.init base size) ops) :
    ∃ s, run (.init base size) ops = .ok s ∧ Sound base size s := by
  obtain ⟨s, he, h⟩ := (Good.init hb).run hbase hb hm
  exact ⟨s, he, h.sound hbase⟩

theorem allMeet_release {held : List Range} {a b addr : Nat}
    (hheld : (run (.init base size) [.alloc a, .alloc b]).toOption.map St.held = some held)
    (hab : (0 < a ∧ a % pageSize = 0) ∧ 0 < b ∧ b % pageSize = 0)
    (hn : 0 < n ∧ addr % pageSize = 0 ∧ n % pageSize = 0)
    (hcov : ∀ x, Range.Mem (addr, n) x → Covers held x) :
    AllMeet (.init base size) [.alloc a, .alloc b, .release addr n] := by
  refine ⟨hab.1, fun s1 h1 => ⟨hab.2, fun s2 h2 =>
    ⟨⟨hn.1, hn.2.1, hn.2.2, ?_⟩, fun _ _ => trivial⟩⟩⟩
  have hrun : run (.init base size) [.alloc a, .alloc b] = .ok s2 :=
    (ok_bind h1 _).trans ((ok_bind h2 _).trans rfl)
  rw [hrun] at hheld
  exact Option.some.inj hheld ▸ hcov

/-- Two blocks are allocated, and the second page of the larger one is released. -/
theorem run_partition_sample : ∃ s, run (.init 0x200000 0x10000)
      [.alloc 0x1000, .alloc 0x2000, .release 0x202000 0x1000] = .ok s ∧
    s.held = [(0x201000, 0x1000), (0x200000, 0x1000)] ∧ Sound 0x200000 0x10000 s := by
  have held2 : (run (.init 0x200000 0x10000) [.alloc 0x1000, .alloc 0x2000]).toOption.map St.held =
      some [(0x201000, 0x2000), (0x200000, 0x1000)] := by decide +kernel
  have held3 : (run (.init 0x200000 0x10000)
      [.alloc 0x1000, .alloc 0x2000, .release 0x202000 0x1000]).toOption.map St.held =
      some [(0x201000, 0x1000), (0x200000, 0x1000)] := by decide +kernel
  have hm : AllMeet _ [_, _, .release 0x202000 0x1000] :=
    allMeet_release held2 (by decide) (by decide) fun x hx => by
      simp only [covers_cons, Range.Mem] at *
      omega
  obtain ⟨s, he, hs⟩ := run_partition 0x200000 0x10000 (by decide) (by decide) _ hm
  rw [he] at held3
  exact ⟨s, he, Option.some.inj held3, hs⟩

/-- With nothing held, both trees have one range, that of `init`. -/
def Rejoined (base size : Nat) (s : St) : Prop :=
  (∀ x, ¬ Covers s.held x) → ∀ i, (i ∈ s.alloc.freeAddrByAddr ↔ i = ⟨base, size⟩) ∧
    (i ∈ s.alloc.freeAddrBySize ↔ i = ⟨size, base⟩)

theorem run_rejoins (base size : Nat) (hbase : 0 < base) (hsize : 0 < size)
    (hb : base + size < w64) (ops : List Op) (hm : AllMeet (.init base size) ops) :
    ∃ s, run (.init base size) ops = .ok s ∧ Rejoined base size s := by
  obtain ⟨s, he, h⟩ := (Good.init hb).run hbase hb hm
  refine ⟨s, he, fun hheld => ?_⟩
  have hfree : ∀ x, Free s.alloc.freeAddrByAddr x ↔ base ≤ x ∧ x < base + size :=
    fun x => by simpa [hheld x] using h.cover x
  have hmem : ∀ i, i ∈ s.alloc.freeAddrByAddr ↔ i = ⟨base, size⟩ := by
    refine fun i => ⟨h.sep.eq_of_interval hfree, ?_⟩
    rintro rfl
    obtain ⟨j, hj, -⟩ := (hfree base).2 ⟨le_rfl, by omega⟩
    exact h.sep.eq_of_interval hfree hj ▸ hj
  intro i
  rw [h.swapped, mem_swapSet, hmem, hmem]
  exact ⟨.rfl, Item.swap_injective.eq_iff' rfl⟩

/-- Two pages are allocated and released with one call. -/
theorem run_rejoins_sample : ∃ s, run (.init 0x1000 0x2000)
      [.alloc 0x1000, .alloc 0x1000, .release 0x1000 0x2000] = .ok s ∧ s.held = [] ∧
    ∀ i, (i ∈ s.alloc.freeAddrByAddr ↔ i = ⟨0x1000, 0x2000⟩) ∧
      (i ∈ s.alloc.freeAddrBySize ↔ i = ⟨0x2000, 0x1000⟩) := by
  have held2 : (run (.init 0x1000 0x2000) [.alloc 0x1000, .alloc 0x1000]).toOption.map St.held =
      some [(0x2000, 0x1000), (0x1000, 0x1000)] := by decide +kernel
  have held3 : (run (.init 0x1000 0x2000)
      [.alloc 0x1000, .alloc 0x1000, .release 0x1000 0x2000]).toOption.map St.held = some [] := by
    decide +kernel
  have hm : AllMeet _ [_, _, .release 0x1000 0x2000] :=
    allMeet_release held2 (by decide) (by decide) fun x hx => by
      simp only [covers_cons, Range.Mem] at *
      omega
  obtain ⟨s, he, hs⟩ := run_rejoins 0x1000 0x2000 (by decide) (by decide) (by decide) _ hm
  rw [he] at held3
  have hheld : s.held = [] := Option.some.inj held3
  exact ⟨s, he, hheld, hs (hheld ▸ fun _ => covers_nil)⟩

/-- The only free range is handed out, and the answer is 0. -/
theorem alloc_zero : ∃ a, allocLinear (init 0 0x1000) 0x1000 = .ok (0, a) ∧
    ⟨0, 0x1000⟩ ∈ (init 0 0x1000).freeAddrByAddr ∧ a.freeAddrByAddr = .empty := by
  refine ⟨{ init 0 0x1000 with freeAddrByAddr := .empty, freeAddrBySize := .empty }, ?_, ?_, rfl⟩
  · decide +kernel
  · decide +kernel

/-- At the top of the address space the end of a range is 0: the page that is released last
is lost. -/
example : (run (.init (2 ^ 64 - 0x2000) 0x2000) [.alloc 0x1000, .alloc 0x1000,
      .release (2 ^ 64 - 0x2000) 0x1000, .release (2 ^ 64 - 0x1000) 0x1000]).toOption.map
      (fun s => (s.alloc.freeAddrByAddr.items, s.held)) =
    some ([⟨2 ^ 64 - 0x2000, 0x1000⟩], []) := by decide +kernel

end Dgos.L2.ContigAlloc
