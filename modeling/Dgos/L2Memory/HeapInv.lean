import Dgos.L2Memory.Heap

/-!
# The invariant of the kernel heap

`Inv h live` ties a heap to the list of its live blocks: the arenas, the pool, the overflow
pages and the large blocks own disjoint mapped memory, and the free chain of a bucket is
exactly the slots of that bucket's arenas that are not live.

Results:
* `alloc_spec`: `alloc` keeps the invariant and adds one live block; no assertion fails.
* `free_spec`: `free` of a live block keeps it, when the block was requested with at most
  `2^31 - 16` bytes.
* `free_asserts`: on every other live block `free` stops at its assertion.
-/
namespace Dgos.L2.Heap

open Range List Function
open Nat (two_pow_pos)

/-! ## Live blocks and slots -/

/-- A block the caller holds: its address, the request and the class `alloc` chose. -/
structure Live where
  ptr : Nat
  req : Nat
  cls : Nat
  deriving DecidableEq, Repr

namespace Live

def hdr (l : Live) : Nat := l.ptr - hdrSize

/-- Header and payload. -/
def block (l : Live) : Range := (l.hdr, 2 ^ l.cls)

/-- The block has a mapping of its own. -/
def isLarge (l : Live) : Bool := bucketCount ≤ l.cls - firstBucket

end Live

/-- An address as a pointer. -/
def toPtr (a : Nat) : Option Nat := if a = 0 then none else some a

theorem toPtr_of_pos {a : Nat} (h : 0 < a) : toPtr a = some a := if_neg (Nat.ne_of_gt h)

def link (h : HeapT) (x : Nat) : Option Nat := toPtr (h.sizeNext x)

def allArenas (h : HeapT) : List Arena := h.arenas ++ h.ext.flatMap (·.2)

def slots (a : Arena) : List Nat :=
  (List.range (bucketSize / 2 ^ a.slotSize)).map fun i => a.mem + i * 2 ^ a.slotSize

/-- `x` is a slot of an arena of bucket `b`. -/
def Slot (h : HeapT) (b x : Nat) : Prop :=
  ∃ a ∈ allArenas h, a.slotSize = b + firstBucket ∧ x ∈ slots a

variable {a : Arena} {x arena size k n b first : Nat} {h h' : HeapT} {l : Live} {live : List Live}
  {L : List Nat}

theorem mem_slots :
    x ∈ slots a ↔ ∃ i < bucketSize / 2 ^ a.slotSize, a.mem + i * 2 ^ a.slotSize = x := by
  simp [slots]

theorem slots_nodup (a : Arena) : (slots a).Nodup := by
  refine nodup_range.map fun i j hij => ?_
  exact Nat.eq_of_mul_eq_mul_right (two_pow_pos a.slotSize) (Nat.add_left_cancel hij)

theorem slot_sub (hx : x ∈ slots a) : Range.Sub (x, 2 ^ a.slotSize) (arenaRange a.mem) := by
  obtain ⟨i, hi, rfl⟩ := mem_slots.1 hx
  have h1 : (i + 1) * 2 ^ a.slotSize ≤ bucketSize :=
    le_trans (Nat.mul_le_mul_right _ hi) (Nat.div_mul_le_self _ _)
  rw [add_mul] at h1
  exact ⟨Nat.le_add_right _ _, by simp only [arenaRange]; omega⟩

theorem slot_mem (hx : x ∈ slots a) : (arenaRange a.mem).Mem x :=
  (slot_sub hx).mem ⟨le_rfl, Nat.lt_add_of_pos_right (Nat.two_pow_pos _)⟩

theorem slots_apart {y : Nat} (hx : x ∈ slots a) (hy : y ∈ slots a) (hne : x ≠ y) :
    Apart (x, 2 ^ a.slotSize) (y, 2 ^ a.slotSize) := by
  obtain ⟨i, -, rfl⟩ := mem_slots.1 hx
  obtain ⟨j, -, rfl⟩ := mem_slots.1 hy
  have key : ∀ {i j : Nat}, i < j → i * 2 ^ a.slotSize + 2 ^ a.slotSize ≤ j * 2 ^ a.slotSize := by
    intro i j hij
    rw [← Nat.succ_mul]; exact Nat.mul_le_mul_right _ hij
  have hij : i ≠ j := fun e => hne (by rw [e])
  rcases Nat.lt_or_gt_of_ne hij with h | h
  · left; have := key h; omega
  · right; have := key h; omega

theorem slot_aligned (hx : x ∈ slots a) (hs : firstBucket ≤ a.slotSize)
    (ha : a.mem % 16 = 0) : x % 16 = 0 := by
  obtain ⟨i, -, rfl⟩ := mem_slots.1 hx
  obtain ⟨k, hk⟩ := Nat.exists_eq_add_of_le (show 4 ≤ a.slotSize by unfold firstBucket at hs; omega)
  have : i * 2 ^ a.slotSize = 16 * (i * 2 ^ k) := by
    rw [hk, Nat.pow_add, Nat.mul_left_comm]
  omega

/-! ## The invariant -/

open Live

/-- The overflow pages, the arenas and the large blocks. -/
def others (h : HeapT) (live : List Live) : List Range :=
  h.ext.map (fun e => (e.1, 4096)) ++ (allArenas h).map (fun a => arenaRange a.mem) ++
    (live.filter Live.isLarge).map Live.block

theorem others_large (hg : l.isLarge = true) (live : List Live) :
    (others h (l :: live)).Perm (l.block :: others h live) := by
  unfold others
  rw [filter_cons, if_pos hg]
  exact perm_middle

theorem others_small (hg : l.isLarge = false) (live : List Live) :
    others h (l :: live) = others h live := by
  simp [others, hg]

theorem isLarge_iff : l.isLarge = true ↔ bucketCount ≤ l.cls - firstBucket := by
  simp [isLarge]

structure LiveOk (h : HeapT) (l : Live) : Prop where
  addr : hdrSize < l.ptr
  aligned : l.ptr % 16 = 0
  cls : l.cls = bitLog2 (l.req + hdrSize)
  req : 0 < l.req
  size : h.sizeNext l.hdr = 2 ^ l.cls
  sig : h.sig1 l.hdr = usedSig
  slot : l.isLarge = false → Slot h (l.cls - firstBucket) l.hdr

/-- `L` is the free chain of bucket `b`. -/
structure FreeChain (h : HeapT) (live : List Live) (b : Nat) (L : List Nat) : Prop where
  chain : Chain (link h) (toPtr (h.freeChains b)) L
  nodup : L.Nodup
  mem : ∀ x, x ∈ L ↔ Slot h b x ∧ x ∉ live.map Live.hdr
  sig : ∀ x ∈ L, h.sig1 x = freeSig

structure ArenaOk (a : Arena) : Prop where
  lo : firstBucket ≤ a.slotSize
  hi : a.slotSize < firstBucket + bucketCount
  pos : 0 < a.mem
  aligned : a.mem % 16 = 0

/-- The arrays of arena records are not overrun. -/
structure Bounds (h : HeapT) : Prop where
  arenas : h.arenas.length ≤ maxArenas
  ext : ∀ e ∈ h.ext, e.2.length ≤ maxExtArenas

structure Inv (h : HeapT) (live : List Live) : Prop where
  pool : Pool h (others h live)
  bounds : Bounds h
  arena : ∀ a ∈ allArenas h, ArenaOk a
  liveOk : ∀ l ∈ live, LiveOk h l
  nodup : (live.map Live.hdr).Nodup
  chain : ∀ b < bucketCount, ∃ L, FreeChain h live b L

theorem LiveOk.ptr_eq (hl : LiveOk h l) : l.ptr = l.hdr + hdrSize := by
  have := hl.addr
  unfold hdr; omega

theorem LiveOk.lo (hl : LiveOk h l) : firstBucket ≤ l.cls := by
  rw [hl.cls]
  exact firstBucket_le_bitLog2 (by have := hl.req; unfold hdrSize; omega)

theorem LiveOk.req_le (hl : LiveOk h l) : l.req + hdrSize ≤ 2 ^ l.cls := by
  rw [hl.cls]; exact le_two_pow_bitLog2 (by unfold hdrSize; omega)

theorem LiveOk.congr (hl : LiveOk h l) (hn : h'.sizeNext l.hdr = h.sizeNext l.hdr)
    (hs : h'.sig1 l.hdr = h.sig1 l.hdr) (hslot : ∀ b x, Slot h b x → Slot h' b x) : LiveOk h' l :=
  ⟨hl.addr, hl.aligned, hl.cls, hl.req, hn.trans hl.size, hs.trans hl.sig,
    fun hg => hslot _ _ (hl.slot hg)⟩

theorem FreeChain.congr {live' : List Live}
    (hL : FreeChain h live b L) (hc : h'.freeChains b = h.freeChains b)
    (hn : ∀ x ∈ L, h'.sizeNext x = h.sizeNext x) (hs : ∀ x ∈ L, h'.sig1 x = h.sig1 x)
    (hmem : ∀ x, Slot h b x ∧ x ∉ live.map hdr ↔ Slot h' b x ∧ x ∉ live'.map hdr) :
    FreeChain h' live' b L where
  chain := by
    rw [hc]
    exact hL.chain.frame fun x hx => by rw [link, link, hn x hx]
  nodup := hL.nodup
  mem x := (hL.mem x).trans (hmem x)
  sig x hx := (hs x hx).trans (hL.sig x hx)

/-- What is live elsewhere does not matter to a bucket. -/
theorem slot_and_iff (hs : ¬ Slot h b l.hdr) : Slot h b x ∧ x ∉ live.map hdr ↔
    Slot h b x ∧ x ∉ (l :: live).map hdr := by
  rw [map_cons, mem_cons, not_or]
  exact ⟨fun hx => ⟨hx.1, fun e => hs (e ▸ hx.1), hx.2⟩, fun hx => ⟨hx.1, hx.2.2⟩⟩

theorem chain_push (hc : Chain (link h) (toPtr first) L)
    (hx : 0 < x) (hL : x ∉ L) (hn : h'.sizeNext = update h.sizeNext x first) :
    Chain (link h') (toPtr x) (x :: L) := by
  rw [toPtr_of_pos hx]
  refine (hc.push hL).frame fun y _ => ?_
  by_cases hy : y = x
  · subst hy; simp [link, hn]
  · simp [link, hn, update_of_ne hy]

namespace Inv

variable {live' : List Live}

theorem owns_others (hi : Inv h live) : Owns h.mapped (others h live) :=
  hi.pool.owns.of_append _

theorem slot_held (hs : Slot h b x) : ∃ r ∈ others h live, r.Mem x := by
  obtain ⟨a, ha, -, hx⟩ := hs
  refine ⟨arenaRange a.mem, ?_, slot_mem hx⟩
  simp only [others, mem_append]
  exact .inl (.inr (mem_map.2 ⟨a, ha, rfl⟩))

theorem block_mem_others {l : Live} (hl : l ∈ live) (hg : l.isLarge = true) :
    l.block ∈ others h live := by
  simp only [others, mem_append]
  exact .inr (mem_map.2 ⟨l, mem_filter.2 ⟨hl, hg⟩, rfl⟩)

section

variable (hi : Inv h live)
include hi

theorem hdr_held (hx : x ∈ live.map hdr) : ∃ r ∈ others h live, r.Mem x := by
  obtain ⟨l, hl, rfl⟩ := mem_map.1 hx
  cases hg : l.isLarge with
  | true =>
    exact ⟨l.block, block_mem_others hl hg, le_rfl, Nat.lt_add_of_pos_right (Nat.two_pow_pos _)⟩
  | false => exact slot_held ((hi.liveOk l hl).slot hg)

theorem arena_unique {a a' : Arena} (ha : a ∈ allArenas h) (ha' : a' ∈ allArenas h)
    (hx : (arenaRange a.mem).Mem x) (hx' : (arenaRange a'.mem).Mem x) : a = a' := by
  by_contra hne
  have hpw : (allArenas h).Pairwise fun a a' => Apart (arenaRange a.mem) (arenaRange a'.mem) := by
    have := hi.owns_others.apart
    simp only [others, pairwise_append] at this
    exact pairwise_map.1 this.1.2.1
  exact (apart_of_pairwise hpw ha ha' hne).not_mem hx hx'

theorem arena_large_apart {a : Arena} {l : Live} (ha : a ∈ allArenas h)
    (hl : l ∈ live) (hg : l.isLarge = true) : Apart (arenaRange a.mem) l.block := by
  have hown := hi.owns_others.apart
  simp only [others, pairwise_append] at hown
  exact hown.2.2 _ (mem_append_right _ (mem_map.2 ⟨a, ha, rfl⟩)) _
    (mem_map.2 ⟨l, mem_filter.2 ⟨hl, hg⟩, rfl⟩)

theorem slot_bucket_unique {b' : Nat} (hs : Slot h b x) (hs' : Slot h b' x) : b = b' := by
  obtain ⟨a, ha, hb, hx⟩ := hs
  obtain ⟨a', ha', hb', hx'⟩ := hs'
  have := hi.arena_unique ha ha' (slot_mem hx) (slot_mem hx')
  subst this
  omega

theorem blocks_apart {l l' : Live} (hl : l ∈ live) (hl' : l' ∈ live)
    (hne : l ≠ l') : Apart l.block l'.block := by
  have hhdr : l.hdr ≠ l'.hdr := fun e => hne (inj_on_of_nodup_map hi.nodup hl hl' e)
  have hown := hi.owns_others.apart
  simp only [others, pairwise_append] at hown
  have hlarge := hown.2.1
  have hsize : ∀ {l : Live} {a : Arena}, l ∈ live → a.slotSize = l.cls - firstBucket + firstBucket →
      a.slotSize = l.cls := fun hl e => by have := (hi.liveOk _ hl).lo; omega
  have hin : ∀ {l : Live} {a : Arena}, a ∈ allArenas h → l ∈ live →
      a.slotSize = l.cls - firstBucket + firstBucket → l.hdr ∈ slots a →
      Range.Sub l.block (arenaRange a.mem) := fun _ hl e hx => by
    have := slot_sub hx; rwa [hsize hl e] at this
  cases hg : l.isLarge with
  | true =>
    cases hg' : l'.isLarge with
    | true =>
      refine apart_of_pairwise (pairwise_map.1 hlarge) ?_ ?_ hne
      · exact mem_filter.2 ⟨hl, hg⟩
      · exact mem_filter.2 ⟨hl', hg'⟩
    | false =>
      obtain ⟨a', ha', hs', hx'⟩ := (hi.liveOk l' hl').slot hg'
      exact (hi.arena_large_apart ha' hl hg).symm.sub_right (hin ha' hl' hs' hx')
  | false =>
    obtain ⟨a, ha, hs, hx⟩ := (hi.liveOk l hl).slot hg
    cases hg' : l'.isLarge with
    | true => exact (hi.arena_large_apart ha hl' hg').sub_left (hin ha hl hs hx)
    | false =>
      obtain ⟨a', ha', hs', hx'⟩ := (hi.liveOk l' hl').slot hg'
      by_cases haa : a = a'
      · subst haa
        have := slots_apart hx hx' hhdr
        rw [hsize hl hs] at this
        have hcls : l'.cls = l.cls := by rw [← hsize hl hs, ← hsize hl' hs']
        unfold block
        rwa [hcls]
      · refine apart_of_not_mem (two_pow_pos _) (two_pow_pos _) fun x hxl hxl' => haa ?_
        exact hi.arena_unique ha ha' ((hin ha hl hs hx).mem hxl) ((hin ha' hl' hs' hx').mem hxl')

theorem perm (hp : live.Perm live') : Inv h live' where
  pool := ⟨hi.pool.owns.perm (List.Perm.append_left _ (List.Perm.append_left _
    ((hp.filter _).map _))), hi.pool.entry⟩
  bounds := hi.bounds
  arena := hi.arena
  liveOk l hl := hi.liveOk l (hp.mem_iff.2 hl)
  nodup := (hp.map _).nodup_iff.1 hi.nodup
  chain b hb := by
    obtain ⟨L, hL⟩ := hi.chain b hb
    exact ⟨L, hL.congr rfl (fun _ _ => rfl) (fun _ _ => rfl) fun x => by
      rw [(hp.map hdr).mem_iff]⟩

/-- What the invariant reads, apart from the pool and the bounds. -/
theorem transport (hc : h'.freeChains = h.freeChains)
    (ha : allArenas h' = allArenas h) (hn : h'.sizeNext = h.sizeNext) (hs : h'.sig1 = h.sig1)
    (hp : Pool h' (others h' live)) (hb : Bounds h') : Inv h' live where
  pool := hp
  bounds := hb
  arena := by rw [ha]; exact hi.arena
  liveOk l hl := (hi.liveOk l hl).congr (by rw [hn]) (by rw [hs]) (by simp [Slot, ha])
  nodup := hi.nodup
  chain b hb := by
    obtain ⟨L, hL⟩ := hi.chain b hb
    exact ⟨L, hL.congr (by rw [hc]) (by simp [hn]) (by simp [hs]) (by simp [Slot, ha])⟩

end

end Inv

/-! ## Adding an arena -/

/-- There is room for one more arena record. -/
def Room (h : HeapT) : Prop :=
  h.arenas.length < maxArenas ∨ ∃ p l rest, h.ext = (p, l) :: rest ∧ l.length < maxExtArenas

theorem newPage_spec (hi : Inv h live) : Ensures (· = .env) (do
      let (h, page) ← mmap h 4096
      pure { h with ext := (page, []) :: h.ext }) fun h' => Inv h' live ∧ Room h' := by
  refine (mmap_spec h (by omega)).bind fun r hr => ?_
  obtain ⟨⟨as, hh⟩, -, -, hap⟩ := hr
  have hown := hi.pool.owns.map_fresh [(r.2, 4096)] hap (by simp)
    (by simp [Range.Sub]) (pairwise_singleton _ _)
  simp only [hh, Ensures.pure_iff]
  refine ⟨hi.transport rfl rfl rfl rfl ⟨hown.perm ?_, hi.pool.entry⟩
    ⟨hi.bounds.arenas, forall_mem_cons.2 ⟨Nat.zero_le _, hi.bounds.ext⟩⟩, ?_⟩
  · simp only [others, map_cons, cons_append, nil_append]
    exact perm_middle.symm
  · exact .inr ⟨r.2, [], h.ext, rfl, by decide⟩

theorem ensureRoom_spec (hi : Inv h live) :
    Ensures (· = .env) (ensureRoom h) fun h' => Inv h' live ∧ Room h' := by
  unfold ensureRoom
  split
  · rename_i hlt; exact ⟨hi, .inl hlt⟩
  split
  · rename_i p l rest he
    split
    · rename_i hlt; exact ⟨hi, .inr ⟨p, l, rest, he, hlt⟩⟩
    · exact newPage_spec hi
  · exact newPage_spec hi

theorem others_perm (hp : (allArenas h').Perm (a :: allArenas h))
    (he : h'.ext.map (·.1) = h.ext.map (·.1)) (live : List Live) :
    (others h' live).Perm (arenaRange a.mem :: others h live) := by
  have hext : h'.ext.map (fun e => (e.1, 4096)) = h.ext.map (fun e => ((e.1, 4096) : Range)) := by
    have := congrArg (List.map fun p => ((p, 4096) : Range)) he
    simpa [map_map, comp_def] using this
  unfold others
  rw [hext, append_assoc, append_assoc]
  refine (List.Perm.append_left _ ((hp.map _).append_right _)).trans ?_
  exact perm_middle

/-- With room, the record is added and no array is overrun. -/
theorem record_spec (hr : Room h) (hb : Bounds h) (a : Arena) :
    (allArenas (record h a)).Perm (a :: allArenas h) ∧ Bounds (record h a) ∧
    (record h a).ext.map (·.1) = h.ext.map (·.1) ∧
    record h a = { h with arenas := (record h a).arenas, ext := (record h a).ext } := by
  unfold record
  split
  · refine ⟨?_, ⟨?_, hb.ext⟩, rfl, rfl⟩
    · simp only [allArenas, append_assoc, singleton_append]
      exact perm_middle
    · simp only [length_append, length_singleton]; omega
  · rename_i hge
    obtain ⟨p, l, rest, he, hlt⟩ := hr.resolve_left hge
    simp only [he]
    have hext := hb.ext
    rw [he, forall_mem_cons] at hext
    refine ⟨?_, ⟨hb.arenas, forall_mem_cons.2 ⟨?_, hext.2⟩⟩, rfl, trivial⟩
    · simp only [allArenas, he, flatMap_cons, append_assoc, singleton_append]
      rw [← append_assoc, ← append_assoc h.arenas l]
      exact perm_middle
    · simp only [length_append, length_singleton]; omega

/-- What filling an arena with slots does to the headers and to the chain. -/
structure Filled (h h' : HeapT) (xs L : List Nat) (first : Nat) : Prop where
  heap : h' = { h with sizeNext := h'.sizeNext, sig1 := h'.sig1 }
  chain : Chain (link h') (toPtr first) (xs ++ L)
  sizeNext : ∀ x, x ∉ xs → h'.sizeNext x = h.sizeNext x
  sig1 : ∀ x, x ∉ xs → h'.sig1 x = h.sig1 x
  free : ∀ x ∈ xs, h'.sig1 x = freeSig

theorem fillSlots_spec (ha : 0 < arena) (hs : 0 < size) (n : Nat) :
    ∀ (h : HeapT) (first : Nat) (L : List Nat), Chain (link h) (toPtr first) L →
      (∀ i < n, arena + i * size ∉ L) →
      Filled h (fillSlots arena size n h first).1 ((List.range n).map (arena + · * size)) L
        (fillSlots arena size n h first).2 := by
  induction n with
  | zero => exact fun h first L hc _ => ⟨rfl, hc, fun _ _ => rfl, fun _ _ => rfl, by simp⟩
  | succ n ih =>
    intro h first L hc hL
    have hlt : ∀ i < n, arena + i * size ≠ arena + n * size := fun i hi e =>
      absurd (Nat.eq_of_mul_eq_mul_right hs (Nat.add_left_cancel e)) (ne_of_lt hi)
    -- slot `n` goes on the chain first, the induction hypothesis pushes the lower ones
    have hpush : Chain (link { h with
        sizeNext := update h.sizeNext (arena + n * size) first
        sig1 := update h.sig1 (arena + n * size) freeSig })
        (toPtr (arena + n * size)) ((arena + n * size) :: L) :=
      chain_push hc (by omega) (hL n (Nat.lt_succ_self n)) rfl
    have := ih _ _ _ hpush fun i hi =>
      mt mem_cons.1 (not_or.2 ⟨hlt i hi, hL i (Nat.lt_succ_of_lt hi)⟩)
    rw [range_succ, map_append, map_singleton]
    refine ⟨?_, ?_, ?_, ?_, ?_⟩
    · rw [fillSlots]; rw [this.heap]
    · rw [append_assoc]; exact this.chain
    · intro x hx
      rw [mem_append, not_or, mem_singleton] at hx
      rw [fillSlots, this.sizeNext x hx.1]; exact update_of_ne hx.2 _ _
    · intro x hx
      rw [mem_append, not_or, mem_singleton] at hx
      rw [fillSlots, this.sig1 x hx.1]; exact update_of_ne hx.2 _ _
    · have hx : arena + n * size ∉ (List.range n).map (arena + · * size) := fun hm => by
        obtain ⟨i, hi, e⟩ := mem_map.1 hm
        exact hlt i (mem_range.1 hi) e
      refine forall_mem_append.2 ⟨this.free, forall_mem_singleton.2 ?_⟩
      rw [fillSlots, this.sig1 _ hx]; exact update_self _ _ _

theorem Filled.first_eq
    (hf : Filled h h' ((List.range n).map (arena + · * size)) L first) (hn : 0 < n) :
    first = arena := by
  have hhead := hf.chain.eq_head?
  rw [head?_append, head?_map, head?_range, if_neg (Nat.ne_of_gt hn)] at hhead
  simpa using (Option.ite_none_left_eq_some.1 hhead).2

/-- The memory of a new arena holds no slot and no live header of the heap yet. -/
theorem not_held (hp : Pool h (arenaRange arena :: others h live)) (hx : (arenaRange arena).Mem x) :
    ¬ ∃ r ∈ others h live, r.Mem x := by
  rintro ⟨r, hr, hxr⟩
  have := hp.owns.of_append _
  exact ((pairwise_cons.1 this.apart).1 r hr).not_mem hx hxr

/-- One more arena, all of whose slots are on the chain of its bucket, keeps the
invariant. -/
theorem Inv.add_arena (hi : Inv h live) (ha : ArenaOk a)
    (hL : FreeChain h live (a.slotSize - firstBucket) L)
    (hperm : (allArenas h').Perm (a :: allArenas h))
    (hnew : ∀ x ∈ slots a, ¬ ∃ r ∈ others h live, r.Mem x) (hp : Pool h' (others h' live))
    (hb : Bounds h') (hn : ∀ x ∉ slots a, h'.sizeNext x = h.sizeNext x)
    (hs : ∀ x ∉ slots a, h'.sig1 x = h.sig1 x) (hfree : ∀ x ∈ slots a, h'.sig1 x = freeSig)
    (hchain : Chain (link h') (toPtr (h'.freeChains (a.slotSize - firstBucket))) (slots a ++ L))
    (hother : ∀ b ≠ a.slotSize - firstBucket, h'.freeChains b = h.freeChains b) :
    Inv h' live := by
  have hlo := ha.lo
  have hslot : ∀ b x, Slot h' b x ↔ Slot h b x ∨ (b = a.slotSize - firstBucket ∧ x ∈ slots a) := by
    intro b x
    simp only [Slot, hperm.mem_iff, mem_cons, or_and_right, exists_or, exists_eq_left]
    rw [or_comm]
    exact or_congr_right (and_congr_left fun _ => ⟨fun e => by omega, fun e => by omega⟩)
  have hold : ∀ {b x}, Slot h b x → x ∉ slots a := fun hx hm => hnew _ hm (Inv.slot_held hx)
  have hhdr : ∀ {x}, x ∈ live.map hdr → x ∉ slots a := fun hx hm => hnew _ hm (hi.hdr_held hx)
  refine ⟨hp, hb, fun a' ha' => ?_, fun l hl => ?_, hi.nodup, fun b hb => ?_⟩
  · exact forall_mem_cons.2 ⟨ha, hi.arena⟩ a' (hperm.mem_iff.1 ha')
  · have hnot := hhdr (mem_map.2 ⟨l, hl, rfl⟩)
    exact (hi.liveOk l hl).congr (hn _ hnot) (hs _ hnot) fun b x hx => (hslot b x).2 (.inl hx)
  · by_cases hbk : b = a.slotSize - firstBucket
    · subst hbk
      refine ⟨slots a ++ L, hchain, ?_, fun x => ?_, forall_mem_append.2 ⟨hfree, fun x hx => ?_⟩⟩
      · exact nodup_append'.2 ⟨slots_nodup a, hL.nodup,
          fun x hx hx' => hold ((hL.mem x).1 hx').1 hx⟩
      · rw [mem_append, hL.mem, hslot]
        constructor
        · rintro (hx | ⟨hx, hx'⟩)
          · exact ⟨.inr ⟨rfl, hx⟩, fun hm => hhdr hm hx⟩
          · exact ⟨.inl hx, hx'⟩
        · rintro ⟨hx | ⟨-, hx⟩, hx'⟩
          · exact .inr ⟨hx, hx'⟩
          · exact .inl hx
      · rw [hs x (hold ((hL.mem x).1 hx).1)]; exact hL.sig x hx
    · obtain ⟨L', hL'⟩ := hi.chain b hb
      have hnot : ∀ x ∈ L', x ∉ slots a := fun x hx => hold ((hL'.mem x).1 hx).1
      refine ⟨L', hL'.congr (hother b hbk) (fun x hx => hn x (hnot x hx))
        (fun x hx => hs x (hnot x hx)) fun x => ?_⟩
      rw [hslot]
      exact and_congr_left fun _ => ⟨.inl, fun hx => hx.resolve_right fun hx => hbk hx.1⟩

section Arena

variable (hi : Inv h live) (hlo : firstBucket ≤ k) (hhi : k < firstBucket + bucketCount)
include hi hlo hhi

theorem addArena_spec (hr : Room h) (hp : Pool h (arenaRange arena :: others h live))
    (ha : 0 < arena) (hal : arena % 16 = 0) :
    Inv (addArena h arena k).1 live ∧
      (addArena h arena k).1.freeChains (k - firstBucket) = (addArena h arena k).2 ∧
      (addArena h arena k).2 ≠ 0 := by
  have hsize : 2 ^ k ≤ bucketSize :=
    Nat.pow_le_pow_right (by omega) (by unfold firstBucket bucketCount at hhi; omega)
  obtain ⟨hperm, hbd, hext, hrec⟩ := record_spec hr hi.bounds ⟨arena, k⟩
  have hnew : ∀ x ∈ slots ⟨arena, k⟩, ¬ ∃ r ∈ others h live, r.Mem x := fun x hx =>
    not_held hp (slot_mem hx)
  obtain ⟨L, hL⟩ := hi.chain (k - firstBucket) (by omega)
  have hfill := fillSlots_spec ha (two_pow_pos k) (bucketSize / 2 ^ k) (record h ⟨arena, k⟩)
    ((record h ⟨arena, k⟩).freeChains (k - firstBucket)) L (by rw [hrec]; exact hL.chain)
    (fun i hi' hm => hnew _ (mem_slots.2 ⟨i, hi', rfl⟩) (Inv.slot_held ((hL.mem _).1 hm).1))
  have hfirst := hfill.first_eq (Nat.div_pos hsize (two_pow_pos k))
  unfold addArena
  simp only [if_neg (not_lt.2 hsize)]
  generalize fillSlots arena (2 ^ k) (bucketSize / 2 ^ k) (record h ⟨arena, k⟩)
    ((record h ⟨arena, k⟩).freeChains (k - firstBucket)) = r at hfill hfirst
  obtain ⟨h2, first⟩ := r
  subst hfirst
  obtain ⟨hheap, hchain, hsn, hsg, hfree⟩ := hfill
  refine ⟨hi.add_arena (a := ⟨first, k⟩) ⟨hlo, hhi, ha, hal⟩ hL ?_ hnew ?_ ?_ (fun x hx => ?_)
    (fun x hx => ?_) hfree ?_ (fun b hb => ?_), update_self _ _ _, Nat.ne_of_gt ha⟩
  · rw [hheap]; exact hperm
  · rw [hheap, hrec]
    exact ⟨hp.owns.perm (List.Perm.append_left _ (others_perm hperm hext live).symm), hp.entry⟩
  · rw [hheap]; exact ⟨hbd.arenas, hbd.ext⟩
  · rw [← congrFun (congrArg HeapT.sizeNext hrec) x]; exact hsn x hx
  · rw [← congrFun (congrArg HeapT.sig1 hrec) x]; exact hsg x hx
  · simp only [update_self]; exact hchain
  · rw [hheap, hrec]; exact update_of_ne hb _ _

theorem createArena_spec : Ensures (· = .env) (createArena h k) fun r =>
      Inv r.1 live ∧ r.1.freeChains (k - firstBucket) = r.2 ∧ r.2 ≠ 0 := by
  unfold createArena
  rw [if_neg (not_lt.2 hlo)]
  refine (ensureRoom_spec hi).bind fun h₁ h1 => ?_
  obtain ⟨hi1, hroom⟩ := h1
  refine (allocArena_spec hi1.pool).bind fun r hr => ?_
  obtain ⟨hp, hf, ha, hal⟩ := hr
  have harenas : allArenas r.1 = allArenas h₁ := by unfold allArenas; rw [hf.arenas, hf.ext]
  have hothers : others r.1 live = others h₁ live := by unfold others; rw [harenas, hf.ext]
  have hb : Bounds r.1 := ⟨by rw [hf.arenas]; exact hi1.bounds.arenas,
    by rw [hf.ext]; exact hi1.bounds.ext⟩
  rw [← hothers] at hp
  have hi2 : Inv r.1 live := hi1.transport hf.freeChains harenas hf.sizeNext hf.sig1
    ⟨(hp.owns.perm perm_middle).of_cons, hp.entry⟩ hb
  refine addArena_spec hi2 hlo hhi ?_ hp ha hal
  unfold Room; rw [hf.arenas, hf.ext]; exact hroom

theorem firstFree_spec : Ensures (· = .env) (firstFree h k) fun r =>
      Inv r.1 live ∧ r.1.freeChains (k - firstBucket) = r.2 ∧ r.2 ≠ 0 := by
  unfold firstFree
  split
  · exact createArena_spec hi hlo hhi
  · rename_i hne; exact ⟨hi, rfl, hne⟩

end Arena

/-! ## `alloc` -/

/-- The live record of a block that `alloc` returns at header `x` for `n` bytes. -/
def liveAt (x n : Nat) : Live := ⟨x + hdrSize, n, bitLog2 (n + hdrSize)⟩

@[simp] theorem liveAt_hdr (x n : Nat) : (liveAt x n).hdr = x := by
  simp [liveAt, hdr]

theorem LiveOk.write_self (hx : 0 < x) (hal : x % 16 = 0) (hn : 0 < n)
    (hslot : (liveAt x n).isLarge = false → Slot h (bitLog2 (n + hdrSize) - firstBucket) x) :
    LiveOk (setUsed h x (2 ^ bitLog2 (n + hdrSize))) (liveAt x n) where
  addr := by simp only [liveAt]; omega
  aligned := by simp only [liveAt, hdrSize]; omega
  cls := rfl
  req := hn
  size := by exact update_self _ _ _
  sig := by exact update_self _ _ _
  slot hg := by exact hslot hg

theorem largeAlloc_spec (hi : Inv h live) (hn : 0 < n)
    (hg : bucketCount ≤ bitLog2 (n + hdrSize) - firstBucket) :
    Ensures (· = .env) (largeAlloc h (2 ^ bitLog2 (n + hdrSize))) fun r =>
      ∃ x, r.2 = x + hdrSize ∧ Inv r.1 (liveAt x n :: live) := by
  refine (mmap_spec h (two_pow_pos _)).bind fun r hr => ?_
  obtain ⟨h₁, x⟩ := r
  obtain ⟨⟨as, hh⟩, hx, hal, hap⟩ := hr
  simp only at hh
  subst hh
  have hlarge : (liveAt x n).isLarge = true := isLarge_iff.2 hg
  -- the fresh region meets nothing the heap holds
  have hnew : ¬ ∃ r ∈ others h live, r.Mem x := by
    rintro ⟨r, hr, hxr⟩
    obtain ⟨m, hm, hxm⟩ := hi.owns_others.inside r hr x hxr
    exact (hap m hm).not_mem hxm ⟨le_rfl, Nat.lt_add_of_pos_right (Nat.two_pow_pos _)⟩
  have hhdr : x ∉ live.map hdr := fun hm => hnew (hi.hdr_held hm)
  refine ⟨x, rfl, ⟨?_, hi.pool.entry⟩, ⟨hi.bounds.arenas, hi.bounds.ext⟩, hi.arena,
    fun l hl => ?_, ?_, fun b hb => ?_⟩
  · have hown := hi.pool.owns.map_fresh [(x, 2 ^ bitLog2 (n + hdrSize))] hap
      (forall_mem_singleton.2 (two_pow_pos _)) (by simp [Range.Sub]) (pairwise_singleton _ _)
    have hperm := (others_large (h := h) hlarge live).symm
    rw [singleton_append] at hown
    exact hown.perm (perm_middle.symm.trans
      (hperm.append_left (reserveArray h ++ h.pool.map arenaRange)))
  · rcases mem_cons.1 hl with rfl | hl
    · exact LiveOk.write_self hx hal hn fun hf => by rw [hlarge] at hf; cases hf
    · have hne : l.hdr ≠ x := fun e => hhdr (e ▸ mem_map.2 ⟨l, hl, rfl⟩)
      exact (hi.liveOk l hl).congr (update_of_ne hne _ _) (update_of_ne hne _ _) fun _ _ h => h
  · exact nodup_cons.2 ⟨hhdr, hi.nodup⟩
  · obtain ⟨L, hL⟩ := hi.chain b hb
    have hs : ¬ Slot h b x := fun hs => hnew (Inv.slot_held hs)
    have hne : ∀ y ∈ L, y ≠ x := fun y hy e => hs (e ▸ ((hL.mem y).1 hy).1)
    exact ⟨L, hL.congr rfl (fun y hy => update_of_ne (hne y hy) _ _)
      (fun y hy => update_of_ne (hne y hy) _ _) fun y => slot_and_iff (by rwa [liveAt_hdr])⟩

/-- The head of a chain is taken off it and handed out. -/
theorem takeFirst_spec (hi : Inv h live) (hn : 0 < n)
    (hg : bitLog2 (n + hdrSize) - firstBucket < bucketCount)
    (hc : h.freeChains (bitLog2 (n + hdrSize) - firstBucket) = x) (hx : x ≠ 0) :
    h.sig1 x = freeSig ∧
    Inv (setUsed (unchain h (bitLog2 (n + hdrSize) - firstBucket) x) x (2 ^ bitLog2 (n + hdrSize)))
      (liveAt x n :: live) := by
  generalize hk : bitLog2 (n + hdrSize) = k at hg hc
  obtain ⟨L, hL⟩ := hi.chain _ hg
  -- the chain starts with `x`
  obtain ⟨L', rfl⟩ : ∃ L', L = x :: L' := by
    have hhead := hL.chain.eq_head?
    rw [hc, toPtr_of_pos (Nat.pos_of_ne_zero hx)] at hhead
    cases L with
    | nil => cases hhead
    | cons y L' => cases hhead; exact ⟨L', rfl⟩
  obtain ⟨hslot, hhdr⟩ := (hL.mem x).1 mem_cons_self
  obtain ⟨hnot, hnd⟩ := nodup_cons.1 hL.nodup
  have hsmall : (liveAt x n).isLarge = false := by
    rw [← Bool.not_eq_true, isLarge_iff]; simp only [liveAt, hk]; omega
  obtain ⟨a, ha, -, hxa⟩ := hslot
  have hal : x % 16 = 0 := slot_aligned hxa (hi.arena a ha).lo (hi.arena a ha).aligned
  refine ⟨hL.sig x mem_cons_self, ⟨?_, hi.pool.entry⟩, ⟨hi.bounds.arenas, hi.bounds.ext⟩,
    hi.arena, fun l hl => ?_, ?_, fun b hb => ?_⟩
  · exact others_small hsmall live ▸ hi.pool.owns
  · rcases mem_cons.1 hl with rfl | hl
    · subst hk
      exact LiveOk.write_self (Nat.pos_of_ne_zero hx) hal hn fun _ =>
        ((hL.mem x).1 mem_cons_self).1
    · have hne : l.hdr ≠ x := fun e => hhdr (e ▸ mem_map.2 ⟨l, hl, rfl⟩)
      exact (hi.liveOk l hl).congr (update_of_ne hne _ _) (update_of_ne hne _ _) fun _ _ h => h
  · exact nodup_cons.2 ⟨hhdr, hi.nodup⟩
  · by_cases hbk : b = k - firstBucket
    · subst hbk
      have hne : ∀ y ∈ L', y ≠ x := fun y hy e => hnot (e ▸ hy)
      refine ⟨L', ?_, hnd, fun y => ?_, fun y hy => ?_⟩
      · simp only [setUsed, unchain, update_self]
        refine hL.chain.2.frame fun y hy => ?_
        simp [link, update_of_ne (hne y hy)]
      · rw [map_cons, mem_cons, not_or]
        have := hL.mem y
        rw [mem_cons] at this
        constructor
        · exact fun hy => ⟨(this.1 (.inr hy)).1, hne y hy, (this.1 (.inr hy)).2⟩
        · exact fun hy => (this.2 ⟨hy.1, hy.2.2⟩).resolve_left hy.2.1
      · simp only [setUsed, unchain, update_of_ne (hne y hy)]
        exact hL.sig y (mem_cons_of_mem x hy)
    · obtain ⟨M, hM⟩ := hi.chain b hb
      have hs : ¬ Slot h b x := fun hs =>
        hbk (hi.slot_bucket_unique hs ((hL.mem x).1 mem_cons_self).1)
      have hne : ∀ y ∈ M, y ≠ x := fun y hy e => hs (e ▸ ((hM.mem y).1 hy).1)
      exact ⟨M, hM.congr (update_of_ne hbk _ _) (fun y hy => update_of_ne (hne y hy) _ _)
        (fun y hy => update_of_ne (hne y hy) _ _) fun y => slot_and_iff (by rwa [liveAt_hdr])⟩

theorem alloc_spec (hi : Inv h live) (hn : n < 2 ^ 36) : Ensures (· = .env) (alloc h n) fun r =>
      (n = 0 ∧ r = (h, 0)) ∨ (0 < n ∧ ∃ x, r.2 = x + hdrSize ∧ Inv r.1 (liveAt x n :: live)) := by
  unfold alloc
  rw [if_neg (not_le.2 hn)]
  by_cases h0 : n = 0
  · rw [if_pos h0]; exact .inl ⟨h0, rfl⟩
  have hpos : 0 < n := Nat.pos_of_ne_zero h0
  have hlo : firstBucket ≤ bitLog2 (n + hdrSize) :=
    firstBucket_le_bitLog2 (by unfold hdrSize; omega)
  rw [if_neg h0]
  simp only [if_neg (not_lt.2 hlo)]
  by_cases hg : bucketCount ≤ bitLog2 (n + hdrSize) - firstBucket
  · rw [if_pos hg]
    exact (largeAlloc_spec hi hpos hg).mono fun r hr => .inr ⟨hpos, hr⟩
  rw [if_neg hg]
  refine (firstFree_spec hi hlo (by omega)).bind fun r hr => ?_
  obtain ⟨hi', hc, hx⟩ := hr
  obtain ⟨hsig, hinv⟩ := takeFirst_spec hi' hpos (by omega) hc hx
  have hsig' : (unchain r.1 (bitLog2 (n + hdrSize) - firstBucket) r.2).sig1 r.2 = freeSig := hsig
  simp only [hsig', ne_eq, not_true_eq_false, if_false]
  exact .inr ⟨hpos, r.2, rfl, hinv⟩

/-! ## `free` -/

theorem free_eq (hl : LiveOk h l) : free h l.ptr =
      if 32 ≤ l.cls then .error .assert
      else if l.isLarge then .ok (munmap h l.hdr (2 ^ l.cls))
      else .ok (rechain h (l.cls - firstBucket) l.hdr) := by
  have haddr := hl.addr
  have hhdr : l.ptr - hdrSize = l.hdr := rfl
  have hpos : (2 ^ l.cls : Nat) ≠ 0 := Nat.ne_of_gt (Nat.two_pow_pos _)
  unfold free
  rw [if_neg (by omega)]
  simp only [hhdr, hl.sig, hl.size, hpos, bitLog2_two_pow, hl.lo, true_and, not_lt, ne_eq,
    not_true_eq_false, if_false, isLarge_iff]
  by_cases hg : bucketCount ≤ l.cls - firstBucket
  · rw [if_neg (not_lt.2 hg), if_pos hg]; rfl
  · rw [if_pos (lt_of_not_ge hg), if_neg hg]; rfl

/-- The class of a block is below 32 exactly for requests of at most `2^31 - 16` bytes. -/
theorem LiveOk.cls_lt_iff (hl : LiveOk h l) : l.cls < 32 ↔ l.req ≤ 2 ^ 31 - 16 := by
  have : l.cls ≤ 31 ↔ l.req + hdrSize ≤ 2 ^ 31 := by
    rw [hl.cls]; exact bitLog2_le_iff (by unfold hdrSize; omega)
  unfold hdrSize at this
  omega

theorem free_asserts (hl : LiveOk h l) (hreq : 2 ^ 31 - 16 < l.req) :
    free h l.ptr = .error .assert := by
  have := hl.cls_lt_iff
  rw [free_eq hl, if_pos (by omega)]

theorem free_spec (hi : Inv h (l :: live))
    (hreq : l.req ≤ 2 ^ 31 - 16) : ∃ h', free h l.ptr = .ok h' ∧ Inv h' live := by
  have hl := hi.liveOk l mem_cons_self
  have hcls := hl.cls_lt_iff.2 hreq
  obtain ⟨hnot, hnd⟩ := nodup_cons.1 hi.nodup
  rw [free_eq hl, if_neg (by omega)]
  cases hg : l.isLarge with
  | true =>
    refine ⟨_, rfl, ⟨?_, hi.pool.entry⟩, ⟨hi.bounds.arenas, hi.bounds.ext⟩, hi.arena,
      fun l' hl' => ?_, hnd, fun b hb => ?_⟩
    · refine Owns.unmap (hi.pool.owns.perm ?_)
      exact (List.Perm.append_left _ (others_large hg live)).trans perm_middle
    · exact (hi.liveOk l' (mem_cons_of_mem l hl')).congr rfl rfl fun _ _ h => h
    · obtain ⟨L, hL⟩ := hi.chain b hb
      -- the header of a large block is no slot
      have hs : ¬ Slot h b l.hdr := by
        rintro ⟨a, ha, -, hx⟩
        exact (hi.arena_large_apart ha mem_cons_self hg).not_mem (slot_mem hx)
          ⟨le_rfl, Nat.lt_add_of_pos_right (Nat.two_pow_pos _)⟩
      exact ⟨L, hL.congr rfl (fun _ _ => rfl) (fun _ _ => rfl) fun x => (slot_and_iff hs).symm⟩
  | false =>
    have hb' : l.cls - firstBucket < bucketCount := by
      have := mt isLarge_iff.2 (Bool.not_eq_true _ ▸ hg); omega
    have hslot := hl.slot hg
    obtain ⟨L, hL⟩ := hi.chain _ hb'
    have hnew : l.hdr ∉ L := fun hm => ((hL.mem _).1 hm).2 mem_cons_self
    refine ⟨_, rfl, ⟨?_, hi.pool.entry⟩, ⟨hi.bounds.arenas, hi.bounds.ext⟩, hi.arena,
      fun l' hl' => ?_, hnd, fun b hb => ?_⟩
    · exact others_small hg live ▸ hi.pool.owns
    · have hne : l'.hdr ≠ l.hdr := fun e => hnot (e ▸ mem_map.2 ⟨l', hl', rfl⟩)
      exact (hi.liveOk l' (mem_cons_of_mem l hl')).congr (update_of_ne hne _ _)
        (update_of_ne hne _ _) fun _ _ h => h
    · by_cases hbk : b = l.cls - firstBucket
      · subst hbk
        refine ⟨l.hdr :: L, ?_, nodup_cons.2 ⟨hnew, hL.nodup⟩, fun x => ?_, fun x hx => ?_⟩
        · have hpos : 0 < l.hdr := by have := hl.addr; unfold hdr; omega
          simp only [rechain, update_self]
          exact chain_push hL.chain hpos hnew rfl
        · have := hL.mem x
          rw [map_cons, mem_cons, not_or] at this
          rw [mem_cons, this]
          constructor
          · rintro (rfl | hx)
            · exact ⟨hslot, hnot⟩
            · exact ⟨hx.1, hx.2.2⟩
          · intro hx
            by_cases e : x = l.hdr
            · exact .inl e
            · exact .inr ⟨hx.1, e, hx.2⟩
        · by_cases e : x = l.hdr
          · subst e; exact update_self _ _ _
          · simp only [rechain, update_of_ne e]
            exact hL.sig x ((mem_cons.1 hx).resolve_left e)
      · obtain ⟨M, hM⟩ := hi.chain b hb
        have hs : ¬ Slot h b l.hdr := fun hx => hbk (hi.slot_bucket_unique hx hslot)
        have hne : ∀ x ∈ M, x ≠ l.hdr := fun x hx e => hs (e ▸ ((hM.mem x).1 hx).1)
        exact ⟨M, hM.congr (update_of_ne hbk _ _) (fun x hx => update_of_ne (hne x hx) _ _)
          (fun x hx => update_of_ne (hne x hx) _ _) fun x => (slot_and_iff hs).symm⟩

end Dgos.L2.Heap
