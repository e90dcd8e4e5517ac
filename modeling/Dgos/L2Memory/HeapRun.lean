import Dgos.L2Memory.HeapInv

/-!
# Runs of the kernel heap

A run creates a heap and then calls `alloc` and `free` in any order; `live` is the list of
the blocks the caller holds. `Good` is what the caller and the chains may rely on.

Results:
* `run_good`: in every run in which `reserve` and `reserve_count` read zero when the heap is
  constructed and every freed block was requested with at most `2^31 - 16` bytes, no
  assertion fails and every state is `Good`.
* `free_two_gib_asserts`: `alloc` returns a block of `2^31` bytes that `free` asserts on.
-/
namespace Dgos.L2.Heap

open Range List

structure St where
  heap : HeapT
  live : List Live

inductive Op where
  | alloc (size : Nat)
  | free (block : Nat)

def step (s : St) : Op → Except Err St
  | .alloc size => do
    let (h, p) ← alloc s.heap size
    pure ⟨h, if p = 0 then s.live else ⟨p, size, bitLog2 (size + hdrSize)⟩ :: s.live⟩
  | .free block => do
    let h ← free s.heap block
    pure ⟨h, s.live.filter (·.ptr ≠ block)⟩

def run : St → List Op → Except Err St
  | s, [] => pure s
  | s, op :: ops => do
    let s ← step s op
    run s ops

/-- `heapimpl_t::create`, without or with an initial reserve.
mirrors kernel/lib/heap.cc:168-190 -/
def create (h : HeapT) : Option Nat → Except Err HeapT
  | none => pure h
  | some initialReserve => reserveReset h initialReserve

/-- The payload of a live block, as its header gives it. -/
def payload (h : HeapT) (l : Live) : Range := (l.ptr, h.sizeNext l.hdr - hdrSize)

/-- What holds between two calls. -/
structure Good (s : St) : Prop where
  apart : (s.live.map (payload s.heap)).Pairwise Apart
  aligned : ∀ l ∈ s.live, l.ptr % 16 = 0
  enough : ∀ l ∈ s.live, l.req ≤ (payload s.heap l).2
  /-- every free slot of the bucket exactly once, and no live one -/
  chain : ∀ b < bucketCount, ∃ L, Chain (link s.heap) (toPtr (s.heap.freeChains b)) L ∧ L.Nodup ∧
    ∀ x, x ∈ L ↔ Slot s.heap b x ∧ x ∉ s.live.map Live.hdr
  /-- `free` derives the class that `alloc` chose -/
  cls : ∀ l ∈ s.live, l.cls = bitLog2 (l.req + hdrSize) ∧ bitLog2 (s.heap.sizeNext l.hdr) = l.cls

/-- The calls of the run: any size below `2^36`, and `free` of live blocks that were
requested with at most `2^31 - 16` bytes. -/
def Meets (s : St) : Op → Prop
  | .alloc size => size < 2 ^ 36
  | .free block => ∃ l ∈ s.live, l.ptr = block ∧ l.req ≤ 2 ^ 31 - 16

instance (s : St) : (op : Op) → Decidable (Meets s op)
  | .alloc size => inferInstanceAs (Decidable (size < 2 ^ 36))
  | .free block => inferInstanceAs (Decidable (∃ l ∈ s.live, l.ptr = block ∧ l.req ≤ 2 ^ 31 - 16))

def AllMeet : St → List Op → Prop
  | _, [] => True
  | s, op :: ops => Meets s op ∧
    match step s op with
    | .ok s' => AllMeet s' ops
    | .error _ => True

instance decAllMeet : (s : St) → (ops : List Op) → Decidable (AllMeet s ops)
  | _, [] => isTrue trivial
  | s, op :: ops =>
    have : Decidable (match step s op with | .ok s' => AllMeet s' ops | .error _ => True) :=
      match step s op with
      | .ok s' => decAllMeet s' ops
      | .error _ => isTrue trivial
    inferInstanceAs (Decidable (_ ∧ _))

theorem Inv.good {s : St} (hi : Inv s.heap s.live) : Good s where
  apart := by
    rw [pairwise_map]
    refine (List.Nodup.of_map _ hi.nodup).pairwise_of_forall_ne fun l hl l' hl' hne => ?_
    have hsub : ∀ {l}, l ∈ s.live → Range.Sub (payload s.heap l) l.block := fun {l} hl => by
      have h1 := (hi.liveOk l hl).ptr_eq
      have h2 := (hi.liveOk l hl).req_le
      unfold payload Live.block Range.Sub
      rw [(hi.liveOk l hl).size]
      exact ⟨by omega, by omega⟩
    exact ((hi.blocks_apart hl hl' hne).sub_left (hsub hl)).sub_right (hsub hl')
  aligned l hl := (hi.liveOk l hl).aligned
  enough l hl := by
    have h1 := (hi.liveOk l hl).req_le
    unfold payload
    rw [(hi.liveOk l hl).size]
    omega
  chain b hb := by
    obtain ⟨L, hL⟩ := hi.chain b hb
    exact ⟨L, hL.chain, hL.nodup, hL.mem⟩
  cls l hl := ⟨(hi.liveOk l hl).cls, by rw [(hi.liveOk l hl).size, bitLog2_two_pow]⟩

variable {h : HeapT}

theorem Inv.split {live : List Live} (hi : Inv h live) {l : Live} (hl : l ∈ live) :
    live.Perm (l :: live.filter (·.ptr ≠ l.ptr)) := by
  have hnd : live.Nodup := List.Nodup.of_map _ hi.nodup
  have hptr : ∀ l' ∈ live, l'.ptr = l.ptr → l' = l := fun l' hl' e =>
    inj_on_of_nodup_map hi.nodup hl' hl (by unfold Live.hdr; rw [e])
  refine (perm_ext_iff_of_nodup hnd ?_).2 fun l' => ?_
  · exact nodup_cons.2 ⟨by simp, hnd.filter _⟩
  · simp only [mem_cons, mem_filter, decide_eq_true_eq]
    constructor
    · intro hl'
      by_cases e : l'.ptr = l.ptr
      · exact .inl (hptr l' hl' e)
      · exact .inr ⟨hl', e⟩
    · rintro (rfl | hl')
      · exact hl
      · exact hl'.1

theorem step_inv {s : St} {op : Op} (hi : Inv s.heap s.live) (hm : Meets s op) :
    Ensures (· = .env) (step s op) fun s' => Inv s'.heap s'.live := by
  cases op with
  | alloc size =>
    refine (alloc_spec hi hm).bind fun r hr => ?_
    rcases hr with ⟨-, rfl⟩ | ⟨-, x, hx, hi'⟩
    · exact hi
    · simp only [Ensures.pure_iff, hx]
      exact hi'
  | free block =>
    obtain ⟨l, hl, rfl, hreq⟩ := hm
    obtain ⟨h', he, hi'⟩ := free_spec (hi.perm (hi.split hl)) hreq
    simp only [step, he]
    exact hi'

theorem run_inv (ops : List Op) : ∀ (s : St), Inv s.heap s.live → AllMeet s ops →
    Ensures (· = .env) (run s ops) fun s' => Inv s'.heap s'.live := by
  induction ops with
  | nil => exact fun s hi _ => hi
  | cons op ops ih =>
    intro s hi hm
    obtain ⟨hm, hrest⟩ := hm
    have hstep := step_inv hi hm
    rw [run]
    cases hs : step s op with
    | error e => rw [hs] at hstep; exact hstep
    | ok s' =>
      rw [hs] at hstep hrest
      exact ih s' hstep hrest

theorem Inv.empty (hp : Pool h []) (ha : h.arenas = []) (he : h.ext = [])
    (hc : ∀ b, h.freeChains b = 0) : Inv h [] where
  pool := by simpa [others, allArenas, ha, he] using hp
  bounds := ⟨by simp [ha], by simp [he]⟩
  arena := by simp [allArenas, ha, he]
  liveOk := by simp
  nodup := nodup_nil
  chain b _ := ⟨[], by simp [hc, toPtr], nodup_nil, by simp [Slot, allArenas, ha, he], by simp⟩

theorem create_inv (hr : h.reserve = 0) (hp : h.pool = []) (ha : h.arenas = [])
    (he : h.ext = []) (hc : ∀ b, h.freeChains b = 0) (initialReserve : Option Nat) :
    Ensures (· = .env) (create h initialReserve) fun h' => Inv h' [] := by
  have hpool : Pool h [] := ⟨by simp [reserveArray, hr, hp, Owns.nil], by simp [hp]⟩
  cases initialReserve with
  | none => exact Inv.empty hpool ha he hc
  | some n =>
    refine (reserveReset_spec hpool n).mono fun h' hh => ?_
    obtain ⟨hp', hf, -⟩ := hh
    exact Inv.empty hp' (hf.arenas.trans ha) (hf.ext.trans he) fun b => by rw [hf.freeChains, hc]

/-- The heap in every run that keeps to the calls of `Meets`. Doubling `reserve_capacity`, which
may hold anything when the heap is constructed, is not to overflow. -/
theorem run_good (id : Nat) (capacity : Fin (2 ^ 32)) (sizeNext sig1 heapId : Nat → Nat)
    (mapped : List Range) (answers : List Nat) (initialReserve : Option Nat) (ops : List Op)
    (hm : ∀ h, create (construct id 0 [] capacity sizeNext sig1 heapId mapped answers)
      initialReserve = .ok h → AllMeet ⟨h, []⟩ ops) :
    Ensures (· = .env)
      (create (construct id 0 [] capacity sizeNext sig1 heapId mapped answers) initialReserve >>=
        fun h => run ⟨h, []⟩ ops) Good := by
  have hc := @create_inv (construct id 0 [] capacity sizeNext sig1 heapId mapped answers)
    rfl rfl rfl rfl (fun _ => rfl) initialReserve
  cases he : create (construct id 0 [] capacity sizeNext sig1 heapId mapped answers)
      initialReserve with
  | error e => rw [he] at hc; exact hc
  | ok h =>
    rw [he] at hc
    exact (run_inv ops ⟨h, []⟩ hc (hm h he)).mono fun s hs => Inv.good hs

/-- A heap in zeroed memory with nothing mapped. -/
def zeroHeap (answers : List Nat) : HeapT :=
  construct 0 0 [] 0 (fun _ => 0) (fun _ => 0) (fun _ => 0) [] answers

/-- A run with a slot, a large block and a slot that is used again. -/
@[irreducible] def sampleOps : List Op :=
  [.alloc 60000, .alloc 100000, .free 0x11ff1010, .alloc 65000]

theorem run_good_sample : AllMeet ⟨zeroHeap [0x10000000, 0x20000000], []⟩ sampleOps ∧
    (run ⟨zeroHeap [0x10000000, 0x20000000], []⟩ sampleOps).toOption.map (·.live) =
      some [⟨0x11ff1010, 65000, 16⟩, ⟨0x20000010, 100000, 17⟩] ∧
    Ensures (· = .env) (run ⟨zeroHeap [0x10000000, 0x20000000], []⟩ sampleOps) Good := by
  have hm : AllMeet ⟨zeroHeap [0x10000000, 0x20000000], []⟩ sampleOps := by decide +kernel
  exact ⟨hm, by decide +kernel, run_good 0 0 (fun _ => 0) (fun _ => 0) (fun _ => 0) []
    [0x10000000, 0x20000000] none sampleOps fun h he => by cases he; exact hm⟩

/-- The class of a `2^31`-byte request is 32, which `free` does not accept. -/
theorem free_two_gib_asserts : (∃ h, alloc (zeroHeap [0x200000]) (2 ^ 31) = .ok (h, 0x200010)) ∧
    run ⟨zeroHeap [0x200000], []⟩ [.alloc (2 ^ 31), .free 0x200010] = .error .assert :=
  ⟨⟨_, rfl⟩, rfl⟩

end Dgos.L2.Heap
