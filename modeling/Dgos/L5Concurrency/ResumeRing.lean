import Dgos.Core.Lts

/-!
# The resume ring of a processor (kernel/arch/x86_64/cpu/cpu_info.h, thread_impl.cc)

`thread_resume` of a thread that sleeps on another processor puts the thread and the value it
should wake with on that processor's ring and sends an interrupt. The handler of the interrupt,
`thread_ipi_resched`, copies the ring to an array of its own and then calls `thread_resume`
with each entry. The ring is read and written under `queue_lock`, so an enqueue and the copying
loop of the handler are one step each; the calls that follow are steps of their own, between
which other processors may enqueue.

A value has 64 bits and is stored in two halves. The handler puts them together again in a
variable of 32 bits. Its array has four entries, the ring holds up to thirteen.

`accepted` and `delivered` are the requests that were enqueued and those `thread_resume` was
called with.

Results:
* `ring_right_iff`: along a run every accepted request is delivered once, in order and with its
  value, and nothing is written outside the arrays, if and only if the handler never finds more
  than four entries and every value it hands on has its upper half zero.
* `value_cut`: a run in which a thread is resumed with another value.
-/
namespace Dgos.L5.ResumeRing

open List Function Nat

/-- mirrors cpu_info.h:93-97 -/
structure ResumeEnt where
  tid : Int
  retLo : BitVec 32
  retHi : BitVec 32
  deriving DecidableEq, Repr

def resumeRingSz : Nat := 14

/-- The size of `resumed_data`.
mirrors thread_impl.cc:619 -/
def resumedDataSz : Nat := 4

/-- A thread and the value it is to wake with. -/
abbrev Request := Int × BitVec 64

structure St where
  resumeRing : Nat → ResumeEnt
  resumeHead : Nat
  resumeTail : Nat
  /-- the entries of the handler's array that are still to be delivered -/
  resumed : List ResumeEnt
  /-- a slot outside the arrays was written -/
  overrun : Bool
  accepted : List Request
  delivered : List Request

/-- An empty ring, and no handler running. -/
structure Init (s : St) : Prop where
  head : s.resumeHead < resumeRingSz
  tail : s.resumeTail = s.resumeHead
  resumed : s.resumed = []
  overrun : s.overrun = false
  accepted : s.accepted = []
  delivered : s.delivered = []

/-! ## The code -/

/-- mirrors cpu_info.h:131-135 -/
def resumeNext (curr : Nat) : Nat := if curr + 1 < resumeRingSz then curr + 1 else 0

/-- mirrors cpu_info.h:137-155 -/
def enqueueResume (s : St) (tid : Int) (value : BitVec 64) : Bool × St :=
  let head := s.resumeHead
  if resumeNext head = s.resumeTail then (false, s)
  else
    (true, { s with
      resumeRing := Function.update s.resumeRing head
        ⟨tid, value.extractLsb' 0 32, value.extractLsb' 32 32⟩
      resumeHead := resumeNext head
      overrun := s.overrun || resumeRingSz ≤ head
      accepted := s.accepted ++ [(tid, value)] })

/-- The loop that empties the ring; the entries it copies, in order.
mirrors thread_impl.cc:625-628 -/
def copyRing (ring : Nat → ResumeEnt) (head : Nat) : Nat → Nat → Option (List ResumeEnt)
  | 0, _ => none
  | fuel + 1, tail =>
    if tail = head then some []
    else (copyRing ring head fuel (resumeNext tail)).map (ring tail :: ·)

/-- The handler up to the release of `queue_lock`.
mirrors thread_impl.cc:617-629 -/
def threadIpiResched (s : St) : Option St := do
  let resumed ← copyRing s.resumeRing s.resumeHead resumeRingSz s.resumeTail
  return { s with
    resumeTail := s.resumeHead
    resumed := resumed
    overrun := s.overrun || resumedDataSz < resumed.length }

/-- `uint32_t exitcode`, handed on as an `intptr_t`.
mirrors thread_impl.cc:633-636 -/
def exitcode (e : ResumeEnt) : BitVec 64 :=
  ((e.retLo.setWidth 64 ||| e.retHi.setWidth 64 <<< 32).setWidth 32).setWidth 64

/-- One round of the handler's second loop.
mirrors thread_impl.cc:632-637 -/
def deliver (s : St) (e : ResumeEnt) (rest : List ResumeEnt) : St :=
  { s with resumed := rest, delivered := s.delivered ++ [(e.tid, exitcode e)] }

/-! ## Steps -/

inductive Act where
  /-- `enqueue_resume` on any processor, and what it returned -/
  | enqueue (tid : Int) (value : BitVec 64) (ok : Bool)
  | interrupt
  | deliver

def step (s : St) : Act → Option St
  | .enqueue tid value ok =>
    let (ok', s') := enqueueResume s tid value
    if ok' = ok then some s' else none
  | .interrupt =>
    match s.resumed with
    | [] => threadIpiResched s
    | _ => none
  | .deliver =>
    match s.resumed with
    | [] => none
    | e :: rest => some (deliver s e rest)

def lts : LTS St Act where
  init := Init
  step s a s' := step s a = some s'

/-! ## What the ring is for -/

/-- The request an entry stands for. -/
def ResumeEnt.request (e : ResumeEnt) : Request := (e.tid, e.retHi ++ e.retLo)

/-- How many entries are between the indices. -/
def St.size (s : St) : Nat := (s.resumeHead + resumeRingSz - s.resumeTail) % resumeRingSz

/-- The entries in the ring, oldest first. -/
def St.pending (s : St) : List ResumeEnt :=
  (List.range s.size).map fun i => s.resumeRing ((s.resumeTail + i) % resumeRingSz)

/-- Nothing was written outside the arrays, and the accepted requests are those delivered, those
about to be and those in the ring, in this order. -/
structure Good (s : St) : Prop where
  inside : s.overrun = false
  fifo : s.accepted =
    s.delivered ++ s.resumed.map ResumeEnt.request ++ s.pending.map ResumeEnt.request

/-- The handler finds no more entries than it has room for, and hands on a value of 32 bits. -/
def Sound (s : St) : Act → Prop
  | .interrupt => s.size ≤ resumedDataSz
  | .deliver =>
    match s.resumed with
    | [] => True
    | e :: _ => e.retHi = 0
  | _ => True

/-! ## Invariant -/

structure Inv (s : St) : Prop where
  head : s.resumeHead < resumeRingSz
  tail : s.resumeTail < resumeRingSz
  good : Good s

variable {s s' : St}

theorem Init.inv (h : Init s) : Inv s := by
  have hh := h.head
  have hsize : s.size = 0 := by
    simp only [St.size, h.tail, resumeRingSz] at ⊢
    omega
  refine ⟨hh, h.tail ▸ hh, h.overrun, ?_⟩
  simp [h.accepted, h.delivered, h.resumed, St.pending, hsize]

theorem resumeNext_eq {n : Nat} (h : n < resumeRingSz) : resumeNext n = (n + 1) % resumeRingSz := by
  unfold resumeNext
  split
  · exact (Nat.mod_eq_of_lt ‹_›).symm
  · have : n + 1 = resumeRingSz := by omega
    rw [this, mod_self]

theorem resumeNext_lt (n : Nat) : resumeNext n < resumeRingSz := by
  unfold resumeNext
  split
  · assumption
  · decide

theorem request_eq (tid : Int) (value : BitVec 64) :
    (ResumeEnt.mk tid (value.extractLsb' 0 32) (value.extractLsb' 32 32)).request =
      (tid, value) := by
  simp only [ResumeEnt.request, Prod.mk.injEq, true_and]
  apply BitVec.eq_of_getLsbD_eq
  intro i hi
  simp only [BitVec.getLsbD_append, BitVec.getLsbD_extractLsb']
  by_cases h : i < 32
  · simp [h]
  · have h' : i - 32 < 32 := by omega
    have e : 32 + (i - 32) = i := by omega
    simp [h, h', e]

/-- What `thread_resume` is called with is the request exactly when the upper half is zero. -/
theorem exitcode_eq_iff (e : ResumeEnt) : exitcode e = e.retHi ++ e.retLo ↔ e.retHi = 0 := by
  have hlo : (exitcode e).toNat = e.retLo.toNat := by
    have : exitcode e = e.retLo.setWidth 64 := by
      apply BitVec.eq_of_getLsbD_eq
      intro i _
      by_cases h : i < 32 <;> simp [exitcode, h]
    simp [this]
    omega
  have hall : (e.retHi ++ e.retLo).toNat = e.retHi.toNat * 2 ^ 32 + e.retLo.toNat := by
    rw [BitVec.toNat_append, ← shiftLeft_add_eq_or_of_lt e.retLo.isLt, shiftLeft_eq]
  have hz : e.retHi = 0 ↔ e.retHi.toNat = 0 := by
    rw [← BitVec.toNat_inj]
    rfl
  rw [← BitVec.toNat_inj, hz]
  omega

theorem pending_enqueue {e : ResumeEnt} {overrun : Bool} {accepted : List Request}
    (hh : s.resumeHead < resumeRingSz) (ht : s.resumeTail < resumeRingSz)
    (hroom : resumeNext s.resumeHead ≠ s.resumeTail) : St.pending { s with
      resumeRing := Function.update s.resumeRing s.resumeHead e
      resumeHead := resumeNext s.resumeHead
      overrun := overrun
      accepted := accepted } = s.pending ++ [e] := by
  rw [resumeNext_eq hh] at hroom ⊢
  have hsize : ((s.resumeHead + 1) % resumeRingSz + resumeRingSz - s.resumeTail) % resumeRingSz =
      s.size + 1 := by
    simp only [St.size, resumeRingSz] at *
    omega
  have hlast : (s.resumeTail + s.size) % resumeRingSz = s.resumeHead := by
    simp only [St.size, resumeRingSz] at *
    omega
  simp only [St.pending, St.size]
  rw [hsize, range_succ, map_append, map_singleton, hlast, update_self]
  congr 1
  refine map_congr_left fun i hi => update_of_ne ?_ _ _
  simp only [mem_range, St.size, resumeRingSz] at *
  omega

/-- The loop of the handler copies what is between the indices. -/
theorem copyRing_eq (ring : Nat → ResumeEnt) {head tail n fuel : Nat} (ht : tail < resumeRingSz)
    (hn : n < fuel) (hf : n < resumeRingSz) (hhead : head = (tail + n) % resumeRingSz) :
    copyRing ring head fuel tail =
      some ((List.range n).map fun i => ring ((tail + i) % resumeRingSz)) := by
  induction n generalizing tail fuel with
  | zero =>
    obtain _ | fuel := fuel
    · omega
    rw [Nat.add_zero, Nat.mod_eq_of_lt ht] at hhead
    simp [copyRing, hhead]
  | succ n ih =>
    obtain _ | fuel := fuel
    · omega
    have hne : tail ≠ head := by
      simp only [resumeRingSz] at *
      omega
    have hnext : head = ((tail + 1) % resumeRingSz + n) % resumeRingSz := by
      rw [hhead, Nat.mod_add_mod, Nat.add_assoc, Nat.add_comm 1 n]
    rw [copyRing, if_neg hne, resumeNext_eq ht, ih (mod_lt _ (by decide)) (by omega) (by omega)
      hnext, Option.map_some, range_succ_eq_map, map_cons, map_map]
    simp only [Nat.add_zero, Nat.mod_eq_of_lt ht]
    congr 2
    refine map_congr_left fun i _ => ?_
    simp only [comp, Nat.mod_add_mod]
    congr 2
    omega

theorem Inv.copyRing (hi : Inv s) :
    copyRing s.resumeRing s.resumeHead resumeRingSz s.resumeTail = some s.pending := by
  have hh := hi.head
  have ht := hi.tail
  have hlt : s.size < resumeRingSz := mod_lt _ (by decide)
  refine copyRing_eq s.resumeRing ht hlt hlt ?_
  simp only [St.size, resumeRingSz] at *
  omega

theorem St.pending_length (s : St) : s.pending.length = s.size := by
  simp [St.pending]

theorem Inv.enqueue (hi : Inv s) (tid : Int) (value : BitVec 64) :
    Inv (enqueueResume s tid value).2 := by
  by_cases hroom : resumeNext s.resumeHead = s.resumeTail
  · simpa [enqueueResume, if_pos hroom] using hi
  simp only [enqueueResume, if_neg hroom]
  refine ⟨resumeNext_lt _, hi.tail, ?_, ?_⟩
  · simp [hi.good.inside, Nat.not_le.2 hi.head]
  · rw [pending_enqueue hi.head hi.tail hroom]
    simp [hi.good.fifo, request_eq]

/-- The handler empties the ring; it stays within its array exactly when there were at most
four entries. -/
theorem Inv.interrupt (hi : Inv s) (hr : s.resumed = []) (hs : threadIpiResched s = some s') :
    s'.resumed = s.pending ∧ (s.size ≤ resumedDataSz → Inv s') ∧
      (s'.overrun = false ↔ s.size ≤ resumedDataSz) := by
  rw [threadIpiResched, hi.copyRing] at hs
  cases hs
  have hover : (s.overrun || decide (resumedDataSz < s.pending.length)) = false ↔
      s.size ≤ resumedDataSz := by
    simp [hi.good.inside, St.pending_length]
  refine ⟨rfl, fun hle => ⟨hi.head, hi.head, hover.2 hle, ?_⟩, hover⟩
  have hempty : St.pending { s with
      resumeTail := s.resumeHead
      resumed := s.pending
      overrun := s.overrun || decide (resumedDataSz < s.pending.length) } = [] := by
    simp [St.pending, St.size]
  rw [hempty]
  simp [hi.good.fifo, hr]

/-- A request is delivered as it was accepted exactly when its value has 32 bits. -/
theorem Inv.deliver (hi : Inv s) {e : ResumeEnt} {rest : List ResumeEnt}
    (hr : s.resumed = e :: rest) : Good (deliver s e rest) ↔ e.retHi = 0 := by
  have hf := hi.good.fifo
  rw [hr] at hf
  rw [← exitcode_eq_iff]
  constructor
  · intro hg
    have heq : (e.tid, exitcode e) = e.request := by
      have := hg.fifo
      simp only [ResumeRing.deliver, hf, map_cons, append_assoc,
        append_cancel_left_eq, cons_append, nil_append, List.cons.injEq] at this
      exact this.1.symm
    exact (Prod.mk.inj heq).2
  · intro he
    refine ⟨hi.good.inside, ?_⟩
    have hp : (ResumeRing.deliver s e rest).pending = s.pending := rfl
    rw [hp]
    simp [ResumeRing.deliver, hf, ResumeEnt.request, he]

theorem Inv.step {a : Act} (hi : Inv s) (hs : step s a = some s') :
    (Sound s a → Inv s') ∧ (Good s' → Sound s a) := by
  cases a with
  | enqueue tid value ok =>
    obtain ⟨-, ⟨⟩⟩ := Option.ite_none_right_eq_some.1 hs
    exact ⟨fun _ => hi.enqueue tid value, fun _ => trivial⟩
  | interrupt =>
    simp only [ResumeRing.step] at hs
    split at hs
    · rename_i hr
      obtain ⟨-, hinv, hsound, -⟩ := hi.interrupt hr hs
      exact ⟨hinv, fun hg => hsound hg.inside⟩
    · cases hs
  | deliver =>
    simp only [ResumeRing.step] at hs
    split at hs
    · cases hs
    · rename_i e rest hr
      cases hs
      simp only [Sound, hr]
      exact ⟨fun hok => ⟨hi.head, hi.tail, (hi.deliver hr).2 hok⟩, (hi.deliver hr).1⟩

/-! ## Results -/

theorem ring_right_iff (s : St) (h : Init s) (acts : List Act) :
    lts.Always Good s acts ↔ lts.Meets Sound s acts := by
  refine LTS.always_iff (fun _ hi => hi.good) (fun _ _ _ hi hok hs => (hi.step hs).1 hok)
    (fun _ _ _ hi hno hs => ?_) h.inv acts
  exact mt (hi.step hs).2 hno

def sampleSt : St := ⟨fun _ => ⟨0, 0, 0⟩, 13, 13, [], false, [], []⟩

theorem sampleSt_init : Init sampleSt := ⟨by decide, rfl, rfl, rfl, rfl, rfl⟩

/-- Two requests, the second of which wraps around the end of the ring. -/
theorem ring_right_sample : lts.Always Good sampleSt
    [.enqueue 20 1 true, .enqueue 21 1 true, .interrupt, .deliver, .deliver] :=
  (ring_right_iff sampleSt sampleSt_init _).2 <|
    .cons rfl trivial <| .cons rfl trivial <| .cons rfl (by decide : 2 ≤ 4) <| .cons rfl rfl <|
    .cons rfl rfl trivial

/-- Thread 20 is to wake with 2^32 and wakes with 0. -/
theorem value_cut : ∃ s, lts.Reachable s ∧ s.accepted = [(20, 4294967296)] ∧
    s.delivered = [(20, 0)] ∧ ¬ Good s := by
  have hrun : lts.Run sampleSt [.enqueue 20 4294967296 true, .interrupt, .deliver] _ :=
    .cons rfl (.cons rfl (.cons rfl (.nil _)))
  exact ⟨_, ⟨sampleSt, _, sampleSt_init, hrun⟩, rfl, rfl, fun hg => absurd hg.fifo (by decide)⟩

end Dgos.L5.ResumeRing
