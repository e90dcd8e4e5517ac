import Dgos.L2Memory.BootMallocInv

/-!
# Runs of the bootloader heap

`malloc_init` followed by calls of `malloc`, `malloc_aligned` and `free` in any order;
`live` is the list of the blocks the caller holds.

Results:
* `run_sound`: in every run in which the region has room for a block and no request wraps
  when it is rounded, every call returns and every state is `Good`.
* `run_regains`: when all is freed, the whole heap can be allocated again.
* `malloc_wraps`: a request of `2^w - 1` bytes is answered with a block without payload.
-/
namespace Dgos.L2.BootMalloc

open Blk Range List Function Nat

/-- A block the caller holds. -/
structure Live where
  ptr : Nat
  req : Nat
  align : Nat
  deriving DecidableEq, Repr

structure St where
  heap : Heap
  live : List Live

inductive Op where
  | malloc (bytes : Nat)
  | mallocAligned (bytes alignment : Nat)
  | free (p : Nat)

/-- The live list after an allocation; null is no block. -/
def noteLive (live : List Live) (p bytes alignment : Nat) : List Live :=
  if p = 0 then live else ⟨p, bytes, alignment⟩ :: live

def step (w : Nat) (s : St) : Op → Except Err St
  | .malloc bytes => do
    let (h, p) ← malloc w s.heap bytes
    pure ⟨h, noteLive s.live p bytes 16⟩
  | .mallocAligned bytes alignment => do
    let (h, p) ← mallocAligned w s.heap bytes alignment
    pure ⟨h, noteLive s.live p bytes alignment⟩
  | .free p => do
    let h ← free w s.heap p
    pure ⟨h, s.live.filter (·.ptr ≠ p)⟩

def run (w : Nat) : St → List Op → Except Err St
  | s, [] => pure s
  | s, op :: ops => do
    let s ← step w s op
    run w s ops

/-! ## What holds in every state -/

/-- The payload of a live block, as its header gives it. -/
def payload (h : Heap) (l : Live) : Range := (l.ptr, (h.hdr (l.ptr - 16)).size - 16)

/-- A request that does not wrap, with an alignment that is a power of two from 16 on. -/
def RequestOk (w bytes alignment : Nat) : Prop :=
  0 < bytes ∧ 16 ≤ alignment ∧ 2 ^ alignment.log2 = alignment ∧ bytes + alignment + 15 < 2 ^ w

instance (w bytes alignment : Nat) : Decidable (RequestOk w bytes alignment) :=
  inferInstanceAs (Decidable (_ ∧ _))

/-- The heap with its blocks `bs`. -/
structure GoodAt (w : Nat) (s : St) (bs : List Blk) : Prop where
  /-- the walk by size from `heap_st` reaches `heap_en` over valid headers -/
  walk : Layout s.heap.hdr s.heap.heapSt bs s.heap.heapEn
  sentinel : s.heap.hdr s.heap.heapEn = mkHdr s.heap.heapEn ⟨0, true⟩
  valid : validate w s.heap s.heap.fuel s.heap.heapSt = true
  /-- the USED blocks are the live allocations, each once -/
  used : ((usedFrom s.heap.heapSt bs).map Prod.fst).Perm (s.live.map (·.ptr - 16))
  enough : ∀ l ∈ s.live, l.req ≤ (payload s.heap l).2
  aligned : ∀ l ∈ s.live, l.ptr % l.align = 0
  apart : (s.live.map (payload s.heap)).Pairwise Apart
  /-- null is returned only when no run of adjacent FREE blocks has room -/
  null : ∀ bytes alignment h', RequestOk w bytes alignment →
    mallocAligned w s.heap bytes alignment = .ok (h', 0) →
    ∀ p fs q, bs = p ++ fs ++ q → (∀ b ∈ fs, b.used = false) →
      ¬ ∃ y, y % alignment = 0 ∧ s.heap.heapSt + total p + 16 ≤ y ∧
        y + bytes ≤ s.heap.heapSt + total p + total fs

def Good (w : Nat) (s : St) : Prop := ∃ bs, GoodAt w s bs

/-- The calls of the run. -/
def Meets (w : Nat) (s : St) : Op → Prop
  | .malloc bytes => RequestOk w bytes 16
  | .mallocAligned bytes alignment => RequestOk w bytes alignment
  | .free p => ∃ l ∈ s.live, l.ptr = p

instance (w : Nat) (s : St) : (op : Op) → Decidable (Meets w s op)
  | .malloc bytes => inferInstanceAs (Decidable (RequestOk w bytes 16))
  | .mallocAligned bytes alignment => inferInstanceAs (Decidable (RequestOk w bytes alignment))
  | .free p => inferInstanceAs (Decidable (∃ l ∈ s.live, l.ptr = p))

def AllMeet (w : Nat) : St → List Op → Prop
  | _, [] => True
  | s, op :: ops => Meets w s op ∧
    match step w s op with
    | .ok s' => AllMeet w s' ops
    | .error _ => True

instance decAllMeet (w : Nat) : (s : St) → (ops : List Op) → Decidable (AllMeet w s ops)
  | _, [] => isTrue trivial
  | s, op :: ops =>
    have : Decidable (match step w s op with | .ok s' => AllMeet w s' ops | .error _ => True) :=
      match step w s op with
      | .ok s' => decAllMeet w s' ops
      | .error _ => isTrue trivial
    inferInstanceAs (Decidable (_ ∧ _))

/-- The region given to `malloc_init`: a block and the sentinel fit, the size is 32 bits. -/
def RegionOk (w st en : Nat) : Prop :=
  (st + 15) / 16 * 16 + 16 < en / 16 * 16 ∧ en < 2 ^ w ∧ en - st < 2 ^ 32

/-! ## The invariant of a run -/

/-- The header and the block of a live allocation. -/
def Live.block (l : Live) : Range := (l.ptr - 16, blockSize l.req)

structure RunInv (w : Nat) (s : St) (bs : List Blk) : Prop where
  inv : Inv w s.heap bs
  used : (usedFrom s.heap.heapSt bs).Perm (s.live.map Live.block)
  liveOk : ∀ l ∈ s.live, l.ptr % l.align = 0 ∧ 16 ≤ l.ptr

variable {w bytes alignment : Nat} {bs : List Blk} {s : St}

theorem RequestOk.req (h : RequestOk w bytes alignment) : Req w bytes alignment := by
  obtain ⟨h0, h16, hpow, hfit⟩ := h
  refine ⟨h0, ⟨alignment.log2, ?_, ?_, hpow.symm⟩, hfit⟩
  · exact (Nat.pow_le_pow_iff_right (by omega : 1 < 2)).1 (by rw [hpow]; exact h16)
  · exact le_of_lt ((Nat.pow_lt_pow_iff_right (by omega : 1 < 2)).1 (by omega))

theorem Inv.size_of_used {h : Heap} (hi : Inv w h bs) {r : Range}
    (hr : r ∈ usedFrom h.heapSt bs) : (h.hdr r.1).size = r.2 := by
  obtain ⟨p, b, q, rfl, -, rfl⟩ := mem_usedFrom hr
  rw [hi.hdr_at]; rfl

theorem mallocInit_inv (hw : 4 ≤ w) (hdr : Nat → BlkHdr) {st en : Nat}
    (hr : RegionOk w st en) : ∃ bs, RunInv w ⟨mallocInit w hdr st en, []⟩ bs := by
  obtain ⟨hroom, hen, hsmall⟩ := hr
  have hst : maskNeg w ((st + 15) % 2 ^ w) 16 = (st + 15) / 16 * 16 := by
    rw [mod_eq_of_lt (by omega), show (16 : Nat) = 2 ^ 4 from rfl, maskNeg_two_pow (by omega) hw]
  have hen' : (maskNeg w en 16 + 2 ^ w - 16) % 2 ^ w = en / 16 * 16 - 16 := by
    rw [show (16 : Nat) = 2 ^ 4 from rfl, maskNeg_two_pow hen hw]
    rw [show en / 2 ^ 4 * 2 ^ 4 + 2 ^ w - 2 ^ 4 = (en / 2 ^ 4 * 2 ^ 4 - 2 ^ 4) + 2 ^ w by omega,
      add_mod_right, mod_eq_of_lt (by omega)]
  have hsize : (en / 16 * 16 - 16 + 2 ^ w - (st + 15) / 16 * 16) % 2 ^ w =
      en / 16 * 16 - 16 - (st + 15) / 16 * 16 := by
    rw [show en / 16 * 16 - 16 + 2 ^ w - (st + 15) / 16 * 16 =
      (en / 16 * 16 - 16 - (st + 15) / 16 * 16) + 2 ^ w by omega, add_mod_right,
      mod_eq_of_lt (by omega)]
  refine ⟨[⟨en / 16 * 16 - 16 - (st + 15) / 16 * 16, false⟩], ?_, ?_, by simp⟩
  · refine ⟨?_, ⟨?_, by simp only; omega, by simp only; omega, ?_⟩, ?_, ?_,
      by simp only [total_cons, total_nil]; omega, [], _, rfl, by simp, by simp, ?_⟩
    · simp only [mallocInit, hst]; omega
    · simp only [mallocInit, hst, hen', hsize, update_self]
      exact makeFree_eq _ (by omega)
    · simp only [mallocInit, hst, hen', Layout]; omega
    · simp only [mallocInit, hst, hen', hsize]
      rw [update_of_ne (by omega)]
      simp [BlkHdr.setSize, BlkHdr.makeValid, mkHdr]
    · simp only [mallocInit, hen']; omega
    · simp [mallocInit]
  · simp [usedFrom]

section

variable (hi : RunInv w s bs)
include hi

theorem noteLive_inv (hr : RequestOk w bytes alignment) :
    ∃ h' p bs', mallocAligned w s.heap bytes alignment = .ok (h', p) ∧
      RunInv w ⟨h', noteLive s.live p bytes alignment⟩ bs' := by
  obtain ⟨h', p, he, ho⟩ := mallocAligned_spec hi.inv hr.req
  cases ho with
  | @null bs' hse hinv hu _ _ =>
    refine ⟨h', 0, bs', he, hinv, ?_, hi.liveOk⟩
    rw [hse.st, hu]; exact hi.used
  | @took bs' x hse hinv hu hal =>
    refine ⟨h', x + 16, bs', he, hinv, ?_, ?_⟩
    · rw [hse.st]
      exact hu.trans (hi.used.cons _)
    · exact forall_mem_cons.2 ⟨⟨hal, le_add_left _ _⟩, hi.liveOk⟩

theorem RunInv.live_nodup : s.live.Pairwise fun l l' => Apart l.block l'.block := by
  have happ : (usedFrom s.heap.heapSt bs).Pairwise Apart := usedFrom_apart
  have hp := (hi.used.pairwise_iff Apart.symm).1 happ
  exact pairwise_map.1 hp

theorem free_inv {l : Live} (hl : l ∈ s.live) :
    ∃ h' bs', free w s.heap l.ptr = .ok h' ∧ RunInv w ⟨h', s.live.filter (·.ptr ≠ l.ptr)⟩ bs' := by
  have hmem : l.block ∈ usedFrom s.heap.heapSt bs := hi.used.mem_iff.2 (mem_map.2 ⟨l, hl, rfl⟩)
  obtain ⟨h', bs', he, hse, hinv, hu⟩ := free_spec hi.inv hmem
  have h16 := (hi.liveOk l hl).2
  rw [show l.ptr - 16 + 16 = l.ptr by omega] at he
  refine ⟨h', bs', he, hinv, ?_, fun l' hl' => hi.liveOk l' (mem_filter.1 hl').1⟩
  -- `live` is `l` and the others, and so are the USED blocks
  have hsplit : s.live.Perm (l :: s.live.filter (·.ptr ≠ l.ptr)) := by
    obtain ⟨p, q, hpq⟩ := append_of_mem hl
    have hne : s.live.Pairwise fun l l' => l.ptr ≠ l'.ptr := hi.live_nodup.imp fun {l l'} h e => by
      unfold Apart Live.block blockSize at h
      omega
    rw [hpq] at hne ⊢
    obtain ⟨-, hq, hcross⟩ := pairwise_append.1 hne
    have hp' : p.filter (·.ptr ≠ l.ptr) = p :=
      filter_eq_self.2 fun c hc => by simpa using hcross c hc l mem_cons_self
    have hq' : q.filter (·.ptr ≠ l.ptr) = q :=
      filter_eq_self.2 fun c hc => by simpa using ((pairwise_cons.1 hq).1 c hc).symm
    rw [filter_append, filter_cons, hp', hq']
    simp only [ne_eq, not_true_eq_false, decide_false, Bool.false_eq_true, if_false]
    exact perm_middle
  have := hu.symm.trans (hi.used.trans (hsplit.map Live.block))
  rw [hse.st]
  exact this.cons_inv

theorem RunInv.of_step {op : Op}
    (hm : Meets w s op) : ∃ s' bs', step w s op = .ok s' ∧ RunInv w s' bs' := by
  cases op with
  | malloc bytes =>
    obtain ⟨h', p, bs', he, hi'⟩ := noteLive_inv hi hm
    exact ⟨_, bs', by simp only [step, malloc, he]; rfl, hi'⟩
  | mallocAligned bytes alignment =>
    obtain ⟨h', p, bs', he, hi'⟩ := noteLive_inv hi hm
    exact ⟨_, bs', by simp only [step, he]; rfl, hi'⟩
  | free p =>
    obtain ⟨l, hl, rfl⟩ := hm
    obtain ⟨h', bs', he, hi'⟩ := free_inv hi hl
    exact ⟨_, bs', by simp only [step, he]; rfl, hi'⟩

end

theorem run_runInv (ops : List Op) : ∀ (s : St) (bs : List Blk), RunInv w s bs →
    AllMeet w s ops → ∃ s' bs', run w s ops = .ok s' ∧ RunInv w s' bs' := by
  induction ops with
  | nil => exact fun s bs hi _ => ⟨s, bs, rfl, hi⟩
  | cons op ops ih =>
    intro s bs hi hm
    obtain ⟨hm, hrest⟩ := hm
    obtain ⟨s1, bs1, hs, hi1⟩ := hi.of_step hm
    rw [hs] at hrest
    obtain ⟨s2, bs2, hr, hi2⟩ := ih s1 bs1 hi1 hrest
    exact ⟨s2, bs2, by rw [run, hs]; exact hr, hi2⟩

theorem RunInv.good (hi : RunInv w s bs) : GoodAt w s bs := by
  have hblock : ∀ l ∈ s.live, payload s.heap l = (l.ptr, blockSize l.req - 16) := fun l hl => by
    have := hi.inv.size_of_used (hi.used.mem_iff.2 (mem_map.2 ⟨l, hl, rfl⟩))
    unfold payload
    rw [show (s.heap.hdr (l.ptr - 16)).size = blockSize l.req from this]
  refine ⟨hi.inv.layout, hi.inv.sentinel, validate_of_inv hi.inv, ?_, fun l hl => ?_,
    fun l hl => (hi.liveOk l hl).1, ?_, ?_⟩
  · have := hi.used.map Prod.fst
    rwa [map_map] at this
  · rw [hblock l hl]; simp only [blockSize]; omega
  · rw [pairwise_map]
    refine hi.live_nodup.imp_of_mem fun {l l'} hl hl' hap => ?_
    rw [hblock l hl, hblock l' hl']
    unfold Apart Live.block blockSize at *
    omega
  · rintro bytes alignment h' hr he p fs q rfl hfs ⟨y, hal, hlo, hhi⟩
    obtain ⟨h'', p', he', ho⟩ := mallocAligned_spec hi.inv hr.req
    rw [he] at he'
    cases he'
    cases ho with
    | null _ _ _ _ hnone =>
      refine hnone y ⟨hal, by omega, fun x hx hx' => ?_⟩
      rw [freeFrom_append, freeFrom_append]
      exact .inl (.inr ((freeFrom_of_free hfs).2 ⟨by omega, by omega⟩))

/-- The heap in every run that keeps to the calls of `Meets`. -/
theorem run_sound (w : Nat) (hw : w = 32 ∨ w = 64) (hdr : Nat → BlkHdr) (st en : Nat)
    (hr : RegionOk w st en) (ops : List Op) (hm : AllMeet w ⟨mallocInit w hdr st en, []⟩ ops) :
    ∃ s, run w ⟨mallocInit w hdr st en, []⟩ ops = .ok s ∧ Good w s := by
  obtain ⟨bs, hi⟩ := mallocInit_inv (by omega) hdr hr
  obtain ⟨s, bs', hs, hi'⟩ := run_runInv ops _ bs hi hm
  exact ⟨s, hs, bs', hi'.good⟩

/-- Zeroed memory. -/
def zeroHdr : Nat → BlkHdr := fun _ => ⟨0, 0, 0, 0⟩

/-- A split for alignment, a freed block and a merge. -/
@[irreducible] def sampleOps : List Op :=
  [.malloc 100, .mallocAligned 64 4096, .free 0x10010, .malloc 200]

theorem run_sound_sample :
    RegionOk 32 0x10000 0x20000 ∧ AllMeet 32 ⟨mallocInit 32 zeroHdr 0x10000 0x20000, []⟩ sampleOps ∧
    (run 32 ⟨mallocInit 32 zeroHdr 0x10000 0x20000, []⟩ sampleOps).toOption.map (·.live) =
      some [⟨0x10010, 200, 16⟩, ⟨0x11000, 64, 4096⟩] ∧
    ∃ s, run 32 ⟨mallocInit 32 zeroHdr 0x10000 0x20000, []⟩ sampleOps = .ok s ∧ Good 32 s := by
  have hr : RegionOk 32 0x10000 0x20000 := by unfold RegionOk; omega
  have hm : AllMeet 32 ⟨mallocInit 32 zeroHdr 0x10000 0x20000, []⟩ sampleOps := by decide +kernel
  exact ⟨hr, hm, by decide +kernel, run_sound 32 (.inl rfl) zeroHdr 0x10000 0x20000 hr sampleOps hm⟩

/-- With nothing live, there is room for a block as large as the heap. -/
def Regains (w : Nat) (s : St) : Prop :=
  s.live = [] → ∀ bytes, 0 < bytes → s.heap.heapSt + 16 + bytes ≤ s.heap.heapEn →
    ∃ h' p, malloc w s.heap bytes = .ok (h', p) ∧ p ≠ 0

theorem run_regains (w : Nat) (hw : w = 32 ∨ w = 64) (hdr : Nat → BlkHdr) (st en : Nat)
    (hr : RegionOk w st en) (ops : List Op) (hm : AllMeet w ⟨mallocInit w hdr st en, []⟩ ops) :
    ∃ s, run w ⟨mallocInit w hdr st en, []⟩ ops = .ok s ∧ Regains w s := by
  obtain ⟨bs, hi⟩ := mallocInit_inv (by omega) hdr hr
  obtain ⟨s, bs', hs, hi'⟩ := run_runInv ops _ bs hi hm
  refine ⟨s, hs, fun hlive bytes hpos hfit => ?_⟩
  have htop := hi'.inv.top
  have hreq : RequestOk w bytes 16 := ⟨hpos, le_rfl, rfl, by omega⟩
  obtain ⟨h', p, he, -⟩ := mallocAligned_spec hi'.inv hreq.req
  refine ⟨h', p, he, fun hp => ?_⟩
  have hused := hi'.used
  rw [hlive, map_nil, perm_nil] at hused
  have hfree : ∀ b ∈ bs', b.used = false := by
    intro b hb
    obtain ⟨p, q, rfl⟩ := append_of_mem hb
    cases hb : b.used with
    | false => rfl
    | true => simp [usedFrom, hb] at hused
  -- so the run of all blocks is FREE
  refine hi'.good.null bytes 16 h' hreq (hp ▸ he) [] bs' [] (by simp) hfree ⟨s.heap.heapSt + 16, ?_⟩
  have := hi'.inv.layout.end_eq
  have := hi'.inv.st16
  simp only [total_nil]
  omega

theorem run_regains_sample : ∃ s, run 32 ⟨mallocInit 32 zeroHdr 0x10000 0x20000, []⟩
    [.malloc 100, .free 0x10010] = .ok s ∧ Regains 32 s :=
  run_regains 32 (.inl rfl) _ _ _ (by unfold RegionOk; omega) _ (by decide +kernel)

/-- The block that answers a request of `2^w - 1` bytes has no payload. -/
def Wraps (w : Nat) : Prop :=
  ∃ s, run w ⟨mallocInit w zeroHdr 0x10000 0x20000, []⟩ [.malloc (2 ^ w - 1)] = .ok s ∧
    s.live = [⟨0x10010, 2 ^ w - 1, 16⟩] ∧ (payload s.heap ⟨0x10010, 2 ^ w - 1, 16⟩).2 = 0 ∧
    ¬ Good w s

theorem malloc_wraps : Wraps 32 ∧ Wraps 64 := by
  have hbad : ∀ {w : Nat} {s : St} {l : Live}, s.live = [l] → (payload s.heap l).2 = 0 → 0 < l.req →
      ¬ Good w s := by
    rintro w s l hl hp hreq ⟨bs, hg⟩
    have := hg.enough l (by rw [hl]; exact mem_cons_self)
    omega
  constructor
  · exact ⟨_, rfl, rfl, by decide +kernel, hbad rfl (by decide +kernel) (by decide)⟩
  · exact ⟨_, rfl, rfl, by decide +kernel, hbad rfl (by decide +kernel) (by decide)⟩

end Dgos.L2.BootMalloc
