import Dgos.Core.Bits
import Dgos.Core.Chain
import Dgos.Core.Outcome
import Dgos.Core.Ranges

/-!
# The kernel heap `heapimpl_t` (kernel/lib/heap.cc)

Requests are rounded up, with a 16-byte header, to a power of two. Classes of 32 bytes
to 64 KiB are cut from 64 KiB arenas and kept on one free chain a class; larger blocks
are mapped directly. The header word `size_next` holds the block size while the block is
used and the chain link while it is free. Arenas come from a reserve pool that is refilled
with one `mmap` for the array of entries and the arenas themselves.

The model keeps the header fields of every address (`sizeNext`, `sig1`, `heapId`); the
payload bytes, which the code only fills with patterns, are left out. Addresses are
numbers, 0 is null. `mmap` answers from a list of addresses: an answer that is not a
fresh, 16-byte aligned region above 1 MiB (what kernel/arch/x86_64/cpu/mmu.cc:2288
asserts of every mapping) stops the run with `Err.env`, which is the environment's
fault and not the heap's. A failed `assert` is `Err.assert`.

Results:
* `bitLog2_le_iff`, `bitLog2_two_pow`: the size class of a request and of its header.
* `reserveReset_spec`, `allocArena_spec`: the pool owns its memory, whatever `mmap` answers.
-/
namespace Dgos.L2.Heap

open Range List Function

/-! ## Constants (heap.cc:24-92) -/

/-- `HEAP_BLK_TYPE_USED`. -/
def usedSig : Nat := 0xeda10ca1

/-- `HEAP_BLK_TYPE_FREE`. -/
def freeSig : Nat := 0x0cb1eefe

/-- `HEAP_1ST_BUCKET`. -/
def firstBucket : Nat := 5

/-- `HEAP_BUCKET_COUNT`. -/
def bucketCount : Nat := 12

/-- `HEAP_BUCKET_SIZE`. -/
def bucketSize : Nat := 2 ^ 16

/-- `sizeof(heap_hdr_t)`. -/
def hdrSize : Nat := 16

/-- `HEAP_MAX_ARENAS`. -/
def maxArenas : Nat := (4096 - 8 * 12 - 8 - 8 - 32 - 4) / 16 - 1

/-- `countof(heap_ext_arena_t::arenas)`. -/
def maxExtArenas : Nat := (4096 - 8 - 8) / 16

/-- `ceil(log2(n))`: the top bit, plus one when a lower bit is set.
mirrors bitsearch.h:185-189, 231-238 -/
def bitLog2 (n : Nat) : Nat := n.log2 + (if n % 2 ^ n.log2 = 0 then 0 else 1)

/-! ## State -/

/-- `heap_page_t`; `slotSize` is the log2 of the size, as `create_arena` stores it. -/
structure Arena where
  mem : Nat
  slotSize : Nat
  deriving DecidableEq, Repr

inductive Err where
  /-- a failed `assert` -/
  | assert
  /-- a wild read -/
  | wild
  /-- `mmap` broke its contract, or no answer is left -/
  | env
  deriving DecidableEq, Repr

/-- mirrors heap.cc:138-153. `ext` is the chain from `last_ext_arena`, `pool`
is `reserve[0 .. reserve_count)` with the top entry first; `mapped` and `answers` are the
state of `mmap`. -/
structure HeapT where
  freeChains : Nat → Nat
  arenas : List Arena
  ext : List (Nat × List Arena)
  reserve : Nat
  pool : List Nat
  reserveCapacity : Nat
  id : Nat
  sizeNext : Nat → Nat
  sig1 : Nat → Nat
  heapId : Nat → Nat
  mapped : List Range
  answers : List Nat

/-- A fresh region of `len` bytes. -/
def mmap (h : HeapT) (len : Nat) : Except Err (HeapT × Nat) :=
  if len = 0 then .ok (h, 0)
  else
    match h.answers with
    | [] => .error .env
    | a :: as =>
      if 0x100000 < a ∧ a % 16 = 0 ∧ len ≤ 2 ^ 47 ∧ a + len ≤ 2 ^ 64 ∧
          ∀ r ∈ h.mapped, r.Apart (a, len) then
        .ok ({ h with answers := as, mapped := (a, len) :: h.mapped }, a)
      else .error .env

def munmap (h : HeapT) (addr len : Nat) : HeapT := { h with mapped := cut h.mapped (addr, len) }

/-! ## The reserve pool -/

/-- mirrors heap.cc:550-585 -/
def reserveAdjPool (h : HeapT) (count : Nat) : Except Err HeapT :=
  let count := min count h.reserveCapacity
  if h.pool.length < count then do
    let added := count - h.pool.length
    let (h, block) ← mmap h (added * bucketSize)
    pure { h with pool := ((List.range added).map fun i => block + bucketSize * i).reverse ++ h.pool }
  else
    let excess := h.pool.length - count
    pure { h with
      pool := h.pool.drop excess
      mapped := (h.pool.take excess).foldl (fun m a => cut m (a, bucketSize)) h.mapped }

/-- The array of `count` entries at the front of `block`, the arenas behind it.
mirrors heap.cc:541-544 -/
def poolEntries (block count : Nat) : List Nat :=
  ((List.range count).map fun i => block + count * 8 + bucketSize * i).reverse

/-- mirrors heap.cc:512-516 -/
def dropArray (h : HeapT) : HeapT :=
  if h.reserve = 0 then h
  else { munmap h h.reserve (h.reserveCapacity * 8) with reserve := 0, reserveCapacity := 0 }

/-- `buckets` entries, rounded up to full pages.
mirrors heap.cc:519-523 -/
def entryCount (buckets : Nat) : Nat := (buckets * 8 + 4095) / 4096 * 4096 / 8

/-- mirrors heap.cc:505-548 -/
def reserveReset (h : HeapT) (buckets : Nat) : Except Err HeapT := do
  let h ← reserveAdjPool h 0
  let count := entryCount buckets
  let (h, block) ← mmap (dropArray h) (count * 8 + count * bucketSize)
  pure { h with reserveCapacity := count, reserve := block, pool := poolEntries block count }

/-- An empty pool is refilled, with twice its capacity.
mirrors heap.cc:242-251 -/
def refill (h : HeapT) : Except Err HeapT :=
  if h.pool = [] then
    reserveReset h (if h.reserveCapacity = 0 then 512 else h.reserveCapacity * 2)
  else pure h

/-- mirrors heap.cc:238-256 -/
def allocArena (h : HeapT) : Except Err (HeapT × Nat) := do
  let h ← refill h
  match h.pool with
  | a :: rest => pure ({ h with pool := rest }, a)
  | [] => .error .wild

/-! ## Arenas -/

/-- Room for one more arena record, in the main list or an overflow page.
mirrors heap.cc:277-303 -/
def ensureRoom (h : HeapT) : Except Err HeapT :=
  if h.arenas.length < maxArenas then pure h
  else
    match h.ext with
    | (_, l) :: _ =>
      if l.length < maxExtArenas then pure h
      else do
        let (h, page) ← mmap h 4096
        pure { h with ext := (page, []) :: h.ext }
    | [] => do
      let (h, page) ← mmap h 4096
      pure { h with ext := (page, []) :: h.ext }

/-- `arena_list_ptr[slot] = { arena, log2size }`.
mirrors heap.cc:314-316 -/
def record (h : HeapT) (a : Arena) : HeapT :=
  if h.arenas.length < maxArenas then { h with arenas := h.arenas ++ [a] }
  else
    match h.ext with
    | (p, l) :: rest => { h with ext := (p, l ++ [a]) :: rest }
    | [] => h

/-- Pushes the first `n` slots of an arena on the chain that starts at `first`, the
highest one first. mirrors heap.cc:322-330 -/
def fillSlots (arena size : Nat) : Nat → HeapT → Nat → HeapT × Nat
  | 0, h, first => (h, first)
  | n + 1, h, first =>
    fillSlots arena size n { h with
      sizeNext := update h.sizeNext (arena + n * size) first
      sig1 := update h.sig1 (arena + n * size) freeSig } (arena + n * size)

/-- A new arena is recorded and its slots are chained. The lowest slot is returned, null
when a slot is larger than the arena. mirrors heap.cc:305-333 -/
def addArena (h : HeapT) (arena log2size : Nat) : HeapT × Nat :=
  let h := record h ⟨arena, log2size⟩
  let (h, first) := fillSlots arena (2 ^ log2size) (bucketSize / 2 ^ log2size) h
    (h.freeChains (log2size - firstBucket))
  ({ h with freeChains := update h.freeChains (log2size - firstBucket) first },
    if bucketSize < 2 ^ log2size then 0 else first)

/-- mirrors heap.cc:269-334 -/
def createArena (h : HeapT) (log2size : Nat) : Except Err (HeapT × Nat) :=
  if log2size < firstBucket then .error .assert
  else do
    let h ← ensureRoom h
    let (h, arena) ← allocArena h
    pure (addArena h arena log2size)

/-! ## `alloc` and `free` -/

/-- The header of a block that is handed out. -/
def setUsed (h : HeapT) (hdr size : Nat) : HeapT :=
  { h with
    sizeNext := update h.sizeNext hdr size
    sig1 := update h.sig1 hdr usedSig
    heapId := update h.heapId hdr h.id }

/-- mirrors heap.cc:344-360 -/
def largeAlloc (h : HeapT) (size : Nat) : Except Err (HeapT × Nat) := do
  let (h, hdr) ← mmap h size
  pure (setUsed h hdr size, hdr + hdrSize)

/-- The head of the chain of `log2size`, which a new arena fills when it is empty.
mirrors heap.cc:402-411 -/
def firstFree (h : HeapT) (log2size : Nat) : Except Err (HeapT × Nat) :=
  if h.freeChains (log2size - firstBucket) = 0 then createArena h log2size
  else pure (h, h.freeChains (log2size - firstBucket))

/-- `free_chains[bucket] = first_free->size_next`.
mirrors heap.cc:413-414 -/
def unchain (h : HeapT) (bucket first : Nat) : HeapT :=
  { h with freeChains := update h.freeChains bucket (h.sizeNext first) }

/-- mirrors heap.cc:367-438 -/
def alloc (h : HeapT) (size : Nat) : Except Err (HeapT × Nat) := do
  if 2 ^ 36 ≤ size then .error .assert
  else if size = 0 then pure (h, 0)
  else
    let log2size := bitLog2 (size + hdrSize)
    if log2size < firstBucket then .error .assert
    else
      let bucket := log2size - firstBucket
      if bucketCount ≤ bucket then largeAlloc h (2 ^ log2size)
      else
        let (h, first) ← firstFree h log2size
        let h := unchain h bucket first
        if h.sig1 first ≠ freeSig then .error .assert
        else pure (setUsed h first (2 ^ log2size), first + hdrSize)

/-- The block goes back on the chain of its bucket.
mirrors heap.cc:457-467 -/
def rechain (h : HeapT) (bucket hdr : Nat) : HeapT :=
  { h with
    sig1 := update h.sig1 hdr freeSig
    sizeNext := update h.sizeNext hdr (h.freeChains bucket)
    freeChains := update h.freeChains bucket hdr }

/-- mirrors heap.cc:440-472 -/
def free (h : HeapT) (block : Nat) : Except Err HeapT :=
  if block = 0 then pure h
  else
    let hdr := block - hdrSize
    if h.sig1 hdr ≠ usedSig then .error .assert
    else if h.sizeNext hdr = 0 then .error .assert
    else
      let log2size := bitLog2 (h.sizeNext hdr)
      if ¬ (firstBucket ≤ log2size ∧ log2size < 32) then .error .assert
      else
        let bucket := log2size - firstBucket
        if bucket < bucketCount then pure (rechain h bucket hdr)
        else pure (munmap h hdr (h.sizeNext hdr))

/-- The constructor clears the chains and the arena lists but not the reserve fields,
which keep what the (uninitialised) page of the heap held.
mirrors heap.cc:754-761 -/
def construct (id reserve : Nat) (pool : List Nat) (capacity : Nat) (sizeNext sig1 heapId : Nat → Nat)
    (mapped : List Range) (answers : List Nat) : HeapT :=
  ⟨fun _ => 0, [], [], reserve, pool, capacity, id, sizeNext, sig1, heapId, mapped, answers⟩

/-! ## Size classes -/

variable {n block count : Nat} {h : HeapT} {others : List Range}

theorem bitLog2_le_iff {k : Nat} (hn : 0 < n) : bitLog2 n ≤ k ↔ n ≤ 2 ^ k := log2_add_le_iff hn

theorem le_two_pow_bitLog2 (hn : 0 < n) : n ≤ 2 ^ bitLog2 n :=
  (bitLog2_le_iff hn).1 le_rfl

/-- What `free` derives from the header is what `alloc` put there. -/
theorem bitLog2_two_pow (k : Nat) : bitLog2 (2 ^ k) = k := by
  apply le_antisymm
  · exact (bitLog2_le_iff (Nat.two_pow_pos k)).2 le_rfl
  · exact (Nat.pow_le_pow_iff_right (by omega)).1 (le_two_pow_bitLog2 (Nat.two_pow_pos k))

theorem firstBucket_le_bitLog2 (hn : 16 < n) : firstBucket ≤ bitLog2 n := by
  by_contra hlt
  have := (bitLog2_le_iff (n := n) (k := 4) (by omega)).1 (by unfold firstBucket at hlt; omega)
  omega

/-! ## The reserve pool and its memory -/

/-- The array of pool entries. -/
def reserveArray (h : HeapT) : List Range :=
  if h.reserve = 0 then [] else [(h.reserve, h.reserveCapacity * 8)]

def arenaRange (mem : Nat) : Range := (mem, bucketSize)

/-- The pool owns its array and its arenas, next to the ranges `others`. -/
structure Pool (h : HeapT) (others : List Range) : Prop where
  owns : Owns h.mapped (reserveArray h ++ h.pool.map arenaRange ++ others)
  entry : ∀ a ∈ h.pool, 0 < a ∧ a % 16 = 0

/-- The functions of the pool leave everything else as it was. -/
structure Frame (h h' : HeapT) : Prop where
  freeChains : h'.freeChains = h.freeChains
  arenas : h'.arenas = h.arenas
  ext : h'.ext = h.ext
  sizeNext : h'.sizeNext = h.sizeNext
  sig1 : h'.sig1 = h.sig1

theorem Frame.trans {h1 h2 h3 : HeapT} (h : Frame h1 h2) (h' : Frame h2 h3) : Frame h1 h3 :=
  ⟨h'.1.trans h.1, h'.2.trans h.2, h'.3.trans h.3, h'.4.trans h.4, h'.5.trans h.5⟩

/-- What an answer of `mmap` is worth. -/
structure Fresh (h h' : HeapT) (a len : Nat) : Prop where
  heap : ∃ as, h' = { h with answers := as, mapped := (a, len) :: h.mapped }
  addr : 0 < a
  aligned : a % 16 = 0
  apart : ∀ r ∈ h.mapped, r.Apart (a, len)

theorem mmap_spec (h : HeapT) {len : Nat} (hlen : 0 < len) :
    Ensures (· = .env) (mmap h len) fun r => Fresh h r.1 r.2 len := by
  unfold mmap
  rw [if_neg (by omega)]
  split
  · exact rfl
  · rename_i a as _
    split_ifs with hc
    · exact ⟨⟨as, rfl⟩, by omega, hc.2.1, hc.2.2.2.2⟩
    · exact rfl

theorem reserveAdjPool_zero_spec (hp : Pool h others) :
    Ensures (· = .env) (reserveAdjPool h 0) fun h' =>
      Owns h'.mapped (reserveArray h' ++ others) ∧ Frame h h' := by
  have he : reserveAdjPool h 0 = .ok { h with
      pool := [], mapped := (h.pool.map arenaRange).foldl cut h.mapped } := by
    simp [reserveAdjPool, foldl_map, arenaRange, pure, Except.pure]
  rw [he]
  refine ⟨Owns.unmap_all _ (hp.owns.perm ?_), rfl, rfl, rfl, rfl, rfl⟩
  rw [← append_assoc]
  exact perm_append_comm.append_right others

theorem mem_poolEntries {a : Nat} :
    a ∈ poolEntries block count ↔ ∃ i < count, block + count * 8 + bucketSize * i = a := by
  simp [poolEntries]

/-- The parts of a refill: the array in front, the arenas behind it. -/
theorem refill_parts (block count : Nat) (hc : 0 < count) :
    (∀ q ∈ (block, count * 8) :: (poolEntries block count).map arenaRange, 0 < q.2) ∧
    (∀ q ∈ (block, count * 8) :: (poolEntries block count).map arenaRange,
      Range.Sub q (block, count * 8 + count * bucketSize)) ∧
    ((block, count * 8) :: (poolEntries block count).map arenaRange).Pairwise Range.Apart := by
  have hmem : ∀ q ∈ (poolEntries block count).map arenaRange,
      ∃ i < count, q = (block + count * 8 + bucketSize * i, bucketSize) := by
    intro q hq
    obtain ⟨a, ha, rfl⟩ := mem_map.1 hq
    obtain ⟨i, hi, rfl⟩ := mem_poolEntries.1 ha
    exact ⟨i, hi, rfl⟩
  refine ⟨forall_mem_cons.2 ⟨by omega, fun q hq => ?_⟩,
    forall_mem_cons.2 ⟨⟨le_rfl, by omega⟩, fun q hq => ?_⟩, ?_⟩
  · obtain ⟨i, -, rfl⟩ := hmem q hq
    exact Nat.two_pow_pos 16
  · obtain ⟨i, hi, rfl⟩ := hmem q hq
    unfold Range.Sub bucketSize
    omega
  · refine pairwise_cons.2 ⟨?_, ?_⟩
    · intro q hq
      obtain ⟨i, -, rfl⟩ := hmem q hq
      left; omega
    · rw [pairwise_map, poolEntries, pairwise_reverse, pairwise_map]
      refine pairwise_lt_range.imp fun {i j} hij => ?_
      unfold Range.Apart arenaRange bucketSize
      omega

theorem dropArray_spec (hown : Owns h.mapped (reserveArray h ++ others)) :
    Owns (dropArray h).mapped others ∧ Frame h (dropArray h) := by
  unfold dropArray
  unfold reserveArray at hown
  split_ifs with hr
  · rw [if_pos hr] at hown
    exact ⟨hown, rfl, rfl, rfl, rfl, rfl⟩
  · rw [if_neg hr] at hown
    exact ⟨hown.unmap, rfl, rfl, rfl, rfl, rfl⟩

theorem refilled_spec {h' : HeapT} (hc : 0 < count) (hev : count * 8 % 16 = 0)
    (hown : Owns h.mapped others) (hr : Fresh h h' block (count * 8 + count * bucketSize)) :
    Pool { h' with reserveCapacity := count, reserve := block, pool := poolEntries block count }
      others := by
  obtain ⟨⟨as, rfl⟩, ha, hal, hap⟩ := hr
  obtain ⟨hpos, hsub, hpw⟩ := refill_parts block count hc
  refine ⟨?_, fun a ham => ?_⟩
  · have := hown.map_fresh _ hap hpos hsub hpw
    simpa [reserveArray, if_neg (Nat.ne_of_gt ha)] using this
  · obtain ⟨i, -, rfl⟩ := mem_poolEntries.1 ham
    unfold bucketSize
    omega

theorem reserveReset_spec (hp : Pool h others) (buckets : Nat) :
    Ensures (· = .env) (reserveReset h buckets) fun h' =>
      Pool h' others ∧ Frame h h' ∧ (0 < buckets → h'.pool ≠ []) := by
  refine (reserveAdjPool_zero_spec hp).bind fun h1 hh => ?_
  obtain ⟨hown1, hf1⟩ := dropArray_spec hh.1
  replace hf1 := hh.2.trans hf1
  by_cases hc : entryCount buckets = 0
  · -- nothing to map: `mmap` of no bytes answers null
    simp only [hc, zero_mul, add_zero, mmap, if_true, poolEntries]
    refine ⟨⟨?_, by simp⟩, hf1.trans ⟨rfl, rfl, rfl, rfl, rfl⟩, fun hb => ?_⟩
    · simpa [reserveArray] using hown1
    · exact absurd hc (Nat.ne_of_gt (by unfold entryCount; omega))
  · refine (mmap_spec (dropArray h1) (by omega)).bind fun r hr => ?_
    refine ⟨refilled_spec (by omega) (by unfold entryCount; omega) hown1 hr, hf1.trans ?_, fun _ => ?_⟩
    · obtain ⟨as, hh⟩ := hr.heap
      rw [hh]; exact ⟨rfl, rfl, rfl, rfl, rfl⟩
    · simp [poolEntries, hc]

theorem refill_spec (hp : Pool h others) :
    Ensures (· = .env) (refill h) fun h' => Pool h' others ∧ Frame h h' ∧ h'.pool ≠ [] := by
  unfold refill
  split
  · refine (reserveReset_spec hp _).mono fun h' hh => ⟨hh.1, hh.2.1, hh.2.2 ?_⟩
    split <;> omega
  · rename_i hne
    exact ⟨hp, ⟨rfl, rfl, rfl, rfl, rfl⟩, hne⟩

theorem allocArena_spec (hp : Pool h others) : Ensures (· = .env) (allocArena h) fun r =>
      Pool r.1 (arenaRange r.2 :: others) ∧ Frame h r.1 ∧ 0 < r.2 ∧ r.2 % 16 = 0 := by
  refine (refill_spec hp).bind fun h' hh => ?_
  obtain ⟨hp', hf, hne⟩ := hh
  cases hpool : h'.pool with
  | nil => exact absurd hpool hne
  | cons a rest =>
    have ha := hp'.entry a (by rw [hpool]; exact mem_cons_self)
    refine ⟨⟨?_, ?_⟩, hf.trans ⟨rfl, rfl, rfl, rfl, rfl⟩, ha.1, ha.2⟩
    · have hown := hp'.owns
      rw [hpool] at hown
      refine hown.perm ?_
      simp only [append_assoc]
      exact List.Perm.append_left _ perm_middle.symm
    · intro b hb
      exact hp'.entry b (by rw [hpool]; exact mem_cons_of_mem a hb)

end Dgos.L2.Heap
