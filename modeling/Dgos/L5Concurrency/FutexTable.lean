import Dgos.Core.Lts

/-!
# The futex table (kernel/syscall/sys_process.cc)

Any number of threads call `futex` with any user addresses. A waiter finds or makes the table
entry of the physical address, is counted in it and sleeps on its condition variable; the last
counted one to leave deletes the entry. `FUTEX_WAIT_OP` sleeps on an entry that is there, and is
not counted. One step of the model is one section of `futex_lock`, or a timer that takes a
sleeping thread off the wait list.

The hash table is a map from the keys under which entries were inserted to pointers, and a lookup
compares the key with the one the entry holds. `live` are the entries that are allocated. What user
memory holds plays no part here: a call of `futex_wait` begins with its section, when the test of
the word has succeeded. `phys` is `mphysaddr`; user addresses of different pages may have the same
physical address.

Results:
* `good_run_iff`: the table is right in all states of a run iff each time the last counted
  waiter leaves, its user address equals the physical one and nobody sleeps on the entry.
* `deleted_entry_kept`: one waiter, after which the table has a deleted entry.
-/
namespace Dgos.L5.FutexTable

open List Function Option
open Finset (mem_insert card_pos mem_erase)

/-! ## State -/

/-- mirrors sys_process.cc:12-16; `wake` is the wait list of the condition
variable, the first to be woken first -/
structure Ent where
  addr : Nat
  waiterCount : Nat
  wake : List Nat
  deriving DecidableEq, Repr

inductive Status where
  | ok | efault | enomem | etimedout
  /-- the result of `FUTEX_WAIT_OP` -/
  | wake (n : Nat)
  deriving DecidableEq, Repr

/-- The call in which a thread sleeps. -/
inductive Call where
  | wait (uptr : Nat)
  | waitOp (wake : Nat)
  deriving DecidableEq, Repr

inductive Pc where
  /-- not in the system call; the result of the last one -/
  | running (last : Option Status)
  /-- on the wait list of the entry `p`, which it found under the physical address -/
  | asleep (addr p : Nat) (call : Call)
  /-- notified or timed out, before `futex_lock` is taken again -/
  | resumed (addr p : Nat) (call : Call) (timedOut : Bool)
  deriving DecidableEq, Repr

open Pc

namespace Pc

/-- The entry on whose wait list the thread is. -/
def asleepOn : Pc → Option Nat
  | .asleep _ p _ => some p
  | _ => none

/-- The entry in which the thread is counted. -/
def countedOn : Pc → Option Nat
  | .asleep _ p (.wait _) => some p
  | .resumed _ p (.wait _) _ => some p
  | _ => none

def resume (timedOut : Bool) : Pc → Pc
  | .asleep addr p call => .resumed addr p call timedOut
  | pc => pc

end Pc

structure St where
  tab : Nat → Option Nat
  ent : Nat → Ent
  live : Finset Nat
  pc : Nat → Pc

def St.initial (ent : Nat → Ent) : St := ⟨fun _ => none, ent, ∅, fun _ => .running none⟩

/-! ## The sections of `futex_lock` -/

/-- mirrors kernel/lib/hash_table.h:147-171 -/
def lookup (s : St) (key : Nat) : Option Nat := (s.tab key).filter fun p => (s.ent p).addr = key

def setPc (s : St) (t : Nat) (pc : Pc) : St := { s with pc := update s.pc t pc }

/-- Only `futex_wait` counts.
mirrors sys_process.cc:88-99, 314-321 -/
def sleepOn (s : St) (t addr p : Nat) (call : Call) : St :=
  let counted := match call with
    | .wait _ => 1
    | .waitOp _ => 0
  { s with
    ent := update s.ent p { s.ent p with
      waiterCount := (s.ent p).waiterCount + counted, wake := (s.ent p).wake ++ [t] }
    pc := update s.pc t (.asleep addr p call) }

/-- A new entry at `p`, in the table.
mirrors sys_process.cc:74-85 -/
def insert (s : St) (addr p : Nat) : St :=
  { s with
    tab := update s.tab addr (some p)
    ent := update s.ent p ⟨addr, 0, []⟩
    live := Insert.insert p s.live }

/-- The first section of `futex_wait`; `new` is what `operator new` answers, 0 when it fails.
mirrors sys_process.cc:66-99 -/
def futexWaitEnter (phys : Nat → Nat) (s : St) (t uptr new : Nat) : St :=
  match lookup s (phys uptr) with
  | some p => sleepOn s t (phys uptr) p (.wait uptr)
  | none =>
    if new = 0 then setPc s t (.running (some .enomem))
    else sleepOn (insert s (phys uptr) new) t (phys uptr) new (.wait uptr)

def waitStatus (timedOut : Bool) : Status := if timedOut then .etimedout else .ok

/-- What the heap fills freed memory with; the wait list has no meaning then.
mirrors kernel/lib/heap.h:6, heap.cc:449-451 -/
def freed : Ent := ⟨0xfefefefefefefefe, 0xfefefefe, []⟩

/-- `futex_tab.del(&uptr); delete fent`. mirrors sys_process.cc:103-106 -/
def remove (s : St) (uptr p : Nat) : St :=
  { s with
    tab := update s.tab uptr none
    ent := update s.ent p freed
    live := s.live.erase p }

/-- The second section of `futex_wait`, after the wait.
mirrors sys_process.cc:101-109 -/
def futexWaitLeave (s : St) (t p uptr : Nat) (timedOut : Bool) : St :=
  let s := setPc s t (.running (some (waitStatus timedOut)))
  if (s.ent p).waiterCount - 1 = 0 then remove s uptr p
  else { s with
    ent := update s.ent p { s.ent p with waiterCount := (s.ent p).waiterCount - 1 } }

/-- mirrors kernel/lib/threadsync.cc:687-701 -/
def condvarWakeN (s : St) (p n : Nat) : St :=
  { s with
    ent := update s.ent p { s.ent p with wake := (s.ent p).wake.drop n }
    pc := fun t => if t ∈ (s.ent p).wake.take n then (s.pc t).resume false else s.pc t }

def intMax : Nat := 2 ^ 31 - 1

/-- `notify_all` for `INT_MAX`, otherwise `notify_n`. -/
def notify (s : St) (p n : Nat) : St :=
  if n = intMax then condvarWakeN s p (s.ent p).wake.length else condvarWakeN s p n

/-- mirrors sys_process.cc:112-133 -/
def futexWake (phys : Nat → Nat) (s : St) (uaddr maxAwakened : Nat) : St :=
  match lookup s (phys uaddr) with
  | some p => notify s p maxAwakened
  | none => s

/-- `futex_wake_op_locked` behind the update of the word, where `cmp` is the outcome of the
comparison. Both entries are those of `uaddr`.
mirrors sys_process.cc:223-224, 236-237, 263-267 -/
def futexWakeOp (phys : Nat → Nat) (s : St) (uaddr wake wake2 : Nat) (cmp : Bool) : St :=
  match lookup s (phys uaddr) with
  | some p =>
    let s := condvarWakeN s p wake
    if cmp then condvarWakeN s p wake2 else s
  | none => s

/-- `futex_wait_op`, where `xchg` says whether the user word could be updated.
mirrors sys_process.cc:276-332 -/
def futexWaitOp (phys : Nat → Nat) (s : St) (t lock cond wake : Nat) (xchg : Bool) : St :=
  if xchg then
    let s' := match lookup s (phys lock) with
      | some p => notify s p wake
      | none => s
    match lookup s (phys cond) with
    | some p => sleepOn s' t (phys cond) p (.waitOp wake)
    | none => setPc s' t (.running (some (.wake wake)))
  else setPc s t (.running (some .efault))

/-- The timer of a sleeping thread expires. A thread that is no more on the list counts as
notified.
mirrors kernel/lib/threadsync.h:162-174 -/
def expire (s : St) (t addr p : Nat) (call : Call) : St :=
  { s with
    ent := update s.ent p { s.ent p with wake := (s.ent p).wake.erase t }
    pc := update s.pc t (.resumed addr p call (t ∈ (s.ent p).wake)) }

/-- A resumed thread gets `futex_lock` and leaves. -/
def leave (s : St) (t p : Nat) (call : Call) (timedOut : Bool) : St :=
  match call with
  | .wait uptr => futexWaitLeave s t p uptr timedOut
  | .waitOp n => setPc s t (.running (some (if timedOut then .etimedout else .wake n)))

inductive Act where
  | wait (t uptr new : Nat)
  | waitOp (t lock cond wake : Nat) (xchg : Bool)
  | wake (uaddr maxAwakened : Nat)
  | wakeOp (uaddr wake wake2 : Nat) (cmp : Bool)
  | timeout (t : Nat)
  | leave (t : Nat)

def Pc.isRunning : Pc → Bool
  | .running _ => true
  | _ => false

def step (phys : Nat → Nat) (s : St) : Act → Option St
  | .wait t uptr new =>
    if (s.pc t).isRunning ∧ new ∉ s.live then some (futexWaitEnter phys s t uptr new) else none
  | .waitOp t lock cond wake xchg =>
    if (s.pc t).isRunning then some (futexWaitOp phys s t lock cond wake xchg) else none
  | .wake uaddr maxAwakened => some (futexWake phys s uaddr maxAwakened)
  | .wakeOp uaddr wake wake2 cmp => some (futexWakeOp phys s uaddr wake wake2 cmp)
  | .timeout t =>
    match s.pc t with
    | .asleep addr p call => some (expire s t addr p call)
    | _ => none
  | .leave t =>
    match s.pc t with
    | .resumed _ p call timedOut => some (leave s t p call timedOut)
    | _ => none

def lts (phys : Nat → Nat) : LTS St Act where
  init s := ∃ ent, s = St.initial ent
  step s a s' := step phys s a = some s'

/-! ## What the table is for -/

/-- * Who sleeps under a physical address sleeps on the entry that a lookup of the address finds.
* The table has no deleted entry, so that a lookup does not read one or find one.
* An entry is there only as long as a waiter is counted in it. -/
structure Good (s : St) : Prop where
  asleep : ∀ t addr p call, s.pc t = .asleep addr p call → lookup s addr = some p ∧ p ∈ s.live
  found : ∀ addr p, s.tab addr = some p → p ∈ s.live
  used : ∀ p ∈ s.live, ∃ t, (s.pc t).countedOn = some p

/-- When the last counted waiter leaves, it was called with the physical address, and nobody
sleeps on the entry. -/
def Meets (s : St) : Act → Prop
  | .leave t =>
    match s.pc t with
    | .resumed addr p (.wait uptr) _ =>
      (s.ent p).waiterCount = 1 → uptr = addr ∧ (s.ent p).wake = []
    | _ => True
  | _ => True

/-! ## Invariant -/

/-- The wait list and the count of an entry agree with where the threads are. -/
structure EntOk (pc : Nat → Pc) (p : Nat) (e : Ent) : Prop where
  nodup : e.wake.Nodup
  mem_wake : ∀ t, t ∈ e.wake ↔ (pc t).asleepOn = some p
  count : ∃ F : Finset Nat, F.Nonempty ∧ (∀ t, t ∈ F ↔ (pc t).countedOn = some p) ∧
    e.waiterCount = F.card

/-- A thread that sleeps or is counted does so in a live entry of its address. -/
def PcOk (s : St) (pc : Pc) : Prop :=
  match pc with
  | .asleep addr p _ => p ∈ s.live ∧ (s.ent p).addr = addr
  | .resumed addr p (.wait _) _ => p ∈ s.live ∧ (s.ent p).addr = addr
  | _ => True

structure Inv (s : St) : Prop where
  tab : ∀ addr p, s.tab addr = some p ↔ p ∈ s.live ∧ (s.ent p).addr = addr
  pcs : ∀ t, PcOk s (s.pc t)
  ents : ∀ p ∈ s.live, EntOk s.pc p (s.ent p)

theorem inv_initial (ent : Nat → Ent) : Inv (St.initial ent) where
  tab addr p := by simp [St.initial]
  pcs t := trivial
  ents p hp := absurd hp (Finset.notMem_empty p)

variable {s : St} {p t addr : Nat} {pc : Pc}

theorem Inv.of_pc (hi : Inv s) (h : s.pc t = pc) : PcOk s pc := h ▸ hi.pcs t

theorem Inv.lookup_eq_some (hi : Inv s) :
    lookup s addr = some p ↔ p ∈ s.live ∧ (s.ent p).addr = addr := by
  rw [lookup, Option.filter_eq_some_iff, hi.tab, decide_eq_true_iff, and_assoc, and_self]

theorem Inv.tab_eq_none (hi : Inv s) (h : lookup s addr = none) : s.tab addr = none := by
  refine eq_none_iff_forall_ne_some.2 fun p hp => ?_
  rw [hi.lookup_eq_some.2 ((hi.tab addr p).1 hp)] at h
  cases h

theorem Inv.good (hi : Inv s) : Good s where
  asleep t addr p call h := ⟨hi.lookup_eq_some.2 (hi.of_pc h), (hi.of_pc h).1⟩
  found addr p h := ((hi.tab addr p).mp h).1
  used p hp := by
    obtain ⟨F, ⟨t, ht⟩, hF, -⟩ := (hi.ents p hp).count
    exact ⟨t, (hF t).mp ht⟩

/-! ## Steps -/

theorem EntOk.congr {pc pc' : Nat → Pc} {e : Ent} (h : EntOk pc p e)
    (hasleep : ∀ t, (pc' t).asleepOn = some p ↔ (pc t).asleepOn = some p)
    (hcounted : ∀ t, (pc' t).countedOn = some p ↔ (pc t).countedOn = some p) : EntOk pc' p e := by
  obtain ⟨F, hne, hF, hcard⟩ := h.count
  exact ⟨h.nodup, fun t => (h.mem_wake t).trans (hasleep t).symm,
    F, hne, fun t => (hF t).trans (hcounted t).symm, hcard⟩

theorem PcOk.mono {s' : St} (h : PcOk s pc)
    (hkeep : ∀ q ∈ s.live, pc.asleepOn = some q ∨ pc.countedOn = some q →
      q ∈ s'.live ∧ (s'.ent q).addr = (s.ent q).addr) : PcOk s' pc := by
  cases pc with
  | running last => trivial
  | asleep addr q call =>
    obtain ⟨hlive, haddr⟩ := hkeep q h.1 (.inl rfl)
    exact ⟨hlive, haddr.trans h.2⟩
  | resumed addr q call b =>
    cases call with
    | wait uptr =>
      obtain ⟨hlive, haddr⟩ := hkeep q h.1 (.inr rfl)
      exact ⟨hlive, haddr.trans h.2⟩
    | waitOp n => trivial

/-- A step that changes one entry and moves threads to or from it. -/
theorem Inv.setEnt (hi : Inv s) {e : Ent} {pc : Nat → Pc}
    (haddr : e.addr = (s.ent p).addr) (hpcs : ∀ t, PcOk s (pc t)) (hent : EntOk pc p e)
    (hasleep : ∀ t q, q ≠ p → ((pc t).asleepOn = some q ↔ (s.pc t).asleepOn = some q))
    (hcounted : ∀ t q, q ≠ p → ((pc t).countedOn = some q ↔ (s.pc t).countedOn = some q)) :
    Inv { s with ent := update s.ent p e, pc := pc } := by
  have hsame : ∀ q, (update s.ent p e q).addr = (s.ent q).addr :=
    (forall_update_iff s.ent fun q e => e.addr = (s.ent q).addr).2 ⟨haddr, fun _ _ => rfl⟩
  refine ⟨fun addr q => ?_, fun t => ?_, fun q hq => ?_⟩
  · simp only [hsame]
    exact hi.tab addr q
  · exact (hpcs t).mono fun q hq _ => ⟨hq, hsame q⟩
  · by_cases hqp : q = p
    · subst hqp
      simp only [update_self]
      exact hent
    · simp only [update_of_ne hqp]
      exact (hi.ents q hq).congr (fun t => hasleep t q hqp) fun t => hcounted t q hqp

/-- A thread that is nowhere on the table. -/
def Pc.away (pc : Pc) : Prop := pc.asleepOn = none ∧ pc.countedOn = none

theorem Pc.away_of_isRunning (h : pc.isRunning = true) : pc.away := by
  cases pc with
  | running _ => exact ⟨rfl, rfl⟩
  | asleep _ _ _ => cases h
  | resumed _ _ _ _ => cases h

/-- A thread moves, but not to or from the entry `p`. -/
theorem on_update {f : Pc → Option Nat} (h : f pc = some p ↔ f (s.pc t) = some p) (u : Nat) :
    f (update s.pc t pc u) = some p ↔ f (s.pc u) = some p :=
  (forall_update_iff s.pc fun u pc => f pc = some p ↔ f (s.pc u) = some p).2
    ⟨h, fun _ _ => Iff.rfl⟩ u

theorem Inv.pcs_update (hi : Inv s) (h : PcOk s pc) : ∀ u, PcOk s (update s.pc t pc u) :=
  (forall_update_iff s.pc fun _ => PcOk s).2 ⟨h, fun u _ => hi.pcs u⟩

theorem Inv.setPc (hi : Inv s) (ht : (s.pc t).away) (last : Option Status) :
    Inv (setPc s t (.running last)) :=
  ⟨hi.tab, hi.pcs_update (show PcOk s (.running last) from trivial),
    fun p hp => (hi.ents p hp).congr (on_update (by rw [ht.1]; rfl)) (on_update (by rw [ht.2]; rfl))⟩

theorem Inv.sleepOn (hi : Inv s) (ht : (s.pc t).away)
    (hp : p ∈ s.live) (haddr : (s.ent p).addr = addr) (call : Call) :
    Inv (sleepOn s t addr p call) := by
  have hold := hi.ents p hp
  have hnot : t ∉ (s.ent p).wake := by
    rw [hold.mem_wake, ht.1]
    nofun
  obtain ⟨F, hne, hF, hcard⟩ := hold.count
  have htF : t ∉ F := by
    rw [hF, ht.2]
    nofun
  refine hi.setEnt rfl (hi.pcs_update ⟨hp, haddr⟩) ⟨?_, fun u => ?_, ?_⟩
    (fun u q hq => on_update (by rw [ht.1]; simp [asleepOn, hq.symm]) u)
    fun u q hq => on_update (by rw [ht.2]; cases call <;> simp [countedOn, hq.symm]) u
  · exact nodup_append_comm.mp (nodup_cons.mpr ⟨hnot, hold.nodup⟩)
  · rw [mem_append, hold.mem_wake]
    by_cases hu : u = t
    · simp [hu, asleepOn]
    · simp [hu]
  · cases call with
    | wait uptr =>
      refine ⟨Insert.insert t F, Finset.insert_nonempty t F, fun u => ?_, ?_⟩
      · rw [mem_insert, hF]
        by_cases hu : u = t
        · simp [hu, countedOn]
        · simp [hu]
      · rw [Finset.card_insert_of_notMem htF, ← hcard]
    | waitOp n =>
      exact ⟨F, hne, fun u => (hF u).trans (on_update (by rw [ht.2]; rfl) u).symm, hcard⟩

theorem Pc.asleepOn_resume (b : Bool) (pc : Pc) : (pc.resume b).asleepOn = none := by
  cases pc <;> rfl

theorem PcOk.resume (h : PcOk s pc) (b : Bool) : PcOk s (pc.resume b) := by
  cases pc with
  | asleep addr p call =>
    cases call with
    | wait uptr => exact h
    | waitOp n => trivial
  | _ => exact h

theorem notify_eq (s : St) (p n : Nat) : ∃ m, notify s p n = condvarWakeN s p m := by
  rw [notify]
  split
  · exact ⟨_, rfl⟩
  · exact ⟨_, rfl⟩

section

variable (hi : Inv s)
include hi

theorem Inv.resume (hp : p ∈ s.live) {W wake : List Nat} (hW : ∀ t ∈ W, t ∈ (s.ent p).wake)
    (hnodup : wake.Nodup) (hwake : ∀ t, t ∈ wake ↔ t ∈ (s.ent p).wake ∧ t ∉ W) (b : Bool) :
    Inv { s with
      ent := update s.ent p { s.ent p with wake := wake }
      pc := fun t => if t ∈ W then (s.pc t).resume b else s.pc t } := by
  have hold := hi.ents p hp
  have hcounted : ∀ t, (if t ∈ W then (s.pc t).resume b else s.pc t).countedOn =
      (s.pc t).countedOn := by
    intro t
    split
    · cases s.pc t with
      | asleep addr p call => cases call <;> rfl
      | _ => rfl
    · rfl
  refine hi.setEnt rfl (fun t => ?_) ⟨hnodup, fun t => ?_, ?_⟩ (fun t q hq => ?_)
    fun t q _ => by rw [hcounted]
  · split
    · exact (hi.pcs t).resume b
    · exact hi.pcs t
  · rw [hwake, hold.mem_wake]
    split
    · next ht => simp [ht, asleepOn_resume]
    · next ht => simp [ht]
  · obtain ⟨F, hne, hF, hcard⟩ := hold.count
    exact ⟨F, hne, fun t => by rw [hF, hcounted], hcard⟩
  · split
    · next ht =>
      rw [asleepOn_resume, (hold.mem_wake t).mp (hW t ht)]
      simp [hq.symm]
    · rfl

theorem Inv.condvarWakeN (hp : p ∈ s.live) (n : Nat) : Inv (condvarWakeN s p n) := by
  have hnodup := (hi.ents p hp).nodup
  refine hi.resume hp (fun t => mem_of_mem_take) (hnodup.sublist (drop_sublist n _))
    (fun t => ?_) false
  have hsplit := take_append_drop n (s.ent p).wake
  rw [← hsplit, nodup_append] at hnodup
  constructor
  · exact fun ht => ⟨mem_of_mem_drop ht, fun ht' => hnodup.2.2 t ht' t ht rfl⟩
  · rintro ⟨ht, hno⟩
    rw [← hsplit, mem_append] at ht
    exact ht.resolve_left hno

theorem Inv.notify (hp : p ∈ s.live) (n : Nat) : Inv (notify s p n) := by
  obtain ⟨m, hm⟩ := notify_eq s p n
  rw [hm]
  exact hi.condvarWakeN hp m

theorem Inv.futexWake (phys : Nat → Nat) (uaddr n : Nat) : Inv (futexWake phys s uaddr n) := by
  rw [FutexTable.futexWake]
  split
  · next p hp => exact hi.notify (hi.lookup_eq_some.1 hp).1 n
  · exact hi

theorem Inv.futexWakeOp (phys : Nat → Nat) (uaddr wake wake2 : Nat)
    (cmp : Bool) : Inv (futexWakeOp phys s uaddr wake wake2 cmp) := by
  rw [FutexTable.futexWakeOp]
  split
  · next p hp =>
    have hlive := (hi.lookup_eq_some.1 hp).1
    split
    · exact (hi.condvarWakeN hlive wake).condvarWakeN hlive wake2
    · exact hi.condvarWakeN hlive wake
  · exact hi

theorem Inv.expire {call : Call}
    (ht : s.pc t = .asleep addr p call) : Inv (expire s t addr p call) := by
  have hpc := hi.of_pc ht
  have hold := hi.ents p hpc.1
  have hmem : t ∈ (s.ent p).wake := (hold.mem_wake t).mpr (by rw [ht]; rfl)
  have hone := hi.resume hpc.1
    (fun u hu => by rw [mem_singleton.mp hu]; exact hmem) (hold.nodup.erase t)
    (fun u => by rw [hold.nodup.mem_erase_iff, mem_singleton, and_comm]) true
  have hpcs : update s.pc t (.resumed addr p call (t ∈ (s.ent p).wake)) =
      fun u => if u ∈ [t] then (s.pc u).resume true else s.pc u := by
    funext u
    by_cases hu : u = t
    · rw [hu, update_self, if_pos (mem_singleton_self t), ht, Pc.resume, decide_eq_true hmem]
    · rw [update_of_ne hu, if_neg (by simpa using hu)]
  rw [FutexTable.expire, hpcs]
  exact hone

theorem Inv.live_of_on (h : (s.pc t).asleepOn = some p ∨ (s.pc t).countedOn = some p) :
    p ∈ s.live := by
  have hpc := hi.pcs t
  cases hs : s.pc t with rw [hs] at h hpc
  | running last => rcases h with h | h <;> cases h
  | asleep addr q call =>
    have hq : some q = some p := by
      rcases h with h | h
      · exact h
      · cases call <;> cases h; rfl
    cases hq
    exact hpc.1
  | resumed addr q call b =>
    cases call <;> rcases h with h | h <;> cases h
    exact hpc.1

theorem Inv.insert (uptr : Nat) (ht : (s.pc t).away) (hp : p ∉ s.live) (hnone : s.tab addr = none) :
    Inv (FutexTable.sleepOn (insert s addr p) t addr p (.wait uptr)) := by
  have hself : (FutexTable.sleepOn (FutexTable.insert s addr p) t addr p (.wait uptr)).ent p =
      ⟨addr, 1, [t]⟩ := by
    simp [FutexTable.sleepOn, FutexTable.insert]
  have hother : ∀ q ≠ p, (FutexTable.sleepOn (FutexTable.insert s addr p) t addr p
      (.wait uptr)).ent q = s.ent q := by
    intro q hq
    simp [FutexTable.sleepOn, FutexTable.insert, hq]
  have hlive : ∀ q ∈ s.live, q ≠ p := fun q hq hqp => hp (hqp ▸ hq)
  refine ⟨fun a q => ?_, (forall_update_iff s.pc fun _ => PcOk _).2 ⟨?_, fun u _ => ?_⟩,
    fun q hq => ?_⟩
  · show update s.tab addr (some p) a = some q ↔ q ∈ Insert.insert p s.live ∧ _
    rw [mem_insert]
    by_cases hq : q = p
    · subst hq
      rw [hself]
      by_cases ha : a = addr
      · simp [ha]
      · rw [update_of_ne ha]
        simp only [true_or, true_and, Ne.symm ha, iff_false]
        exact fun hs => hp (hi.good.found a q hs)
    · rw [hother q hq]
      by_cases ha : a = addr
      · have := hi.tab addr q
        rw [hnone] at this
        simp [ha, hq, Ne.symm hq, ← this]
      · rw [update_of_ne ha, hi.tab]
        simp [hq]
  · exact ⟨Finset.mem_insert_self p s.live, by rw [hself]⟩
  · exact (hi.pcs u).mono fun q hq _ =>
      ⟨Finset.mem_insert_of_mem hq, by rw [hother q (hlive q hq)]⟩
  · show EntOk (update s.pc t (.asleep addr p (.wait uptr))) q _
    by_cases hqp : q = p
    · subst hqp
      rw [hself]
      refine ⟨nodup_singleton t, fun u => ?_, {t}, Finset.singleton_nonempty t, fun u => ?_, rfl⟩
      · by_cases hu : u = t
        · simp [hu, asleepOn]
        · simp only [mem_singleton, hu, update_of_ne hu, false_iff]
          exact fun h => hp (hi.live_of_on (.inl h))
      · by_cases hu : u = t
        · simp [hu, countedOn]
        · simp only [Finset.mem_singleton, hu, update_of_ne hu, false_iff]
          exact fun h => hp (hi.live_of_on (.inr h))
    · have hq : q ∈ s.live := (mem_insert.mp hq).resolve_left hqp
      rw [hother q hqp]
      exact (hi.ents q hq).congr (on_update (by rw [ht.1]; simp [asleepOn, Ne.symm hqp]))
        (on_update (by rw [ht.2]; simp [countedOn, Ne.symm hqp]))

theorem Inv.futexWaitEnter (phys : Nat → Nat) {new : Nat} (uptr : Nat)
    (ht : (s.pc t).away) (hnew : new ∉ s.live) : Inv (futexWaitEnter phys s t uptr new) := by
  rw [FutexTable.futexWaitEnter]
  split
  · next p hp =>
    obtain ⟨hlive, haddr⟩ := hi.lookup_eq_some.1 hp
    exact hi.sleepOn ht hlive haddr _
  · next hnone =>
    split
    · exact hi.setPc ht _
    · exact hi.insert uptr ht hnew (hi.tab_eq_none hnone)

/-- A wake leaves threads that do not sleep where they are. -/
theorem Inv.notify_keeps (hp : p ∈ s.live) (ht : (s.pc t).away) (n : Nat) :
    (FutexTable.notify s p n).pc t = s.pc t ∧ (FutexTable.notify s p n).live = s.live ∧
      ∀ q, ((FutexTable.notify s p n).ent q).addr = (s.ent q).addr := by
  obtain ⟨m, hm⟩ := notify_eq s p n
  have hnot : t ∉ (s.ent p).wake := by
    rw [(hi.ents p hp).mem_wake, ht.1]
    nofun
  rw [hm]
  refine ⟨if_neg fun hmem => hnot (mem_of_mem_take hmem), rfl, fun q => ?_⟩
  by_cases hq : q = p
  · simp [FutexTable.condvarWakeN, hq]
  · simp [FutexTable.condvarWakeN, update_of_ne hq]

end

theorem Inv.futexWaitOp (hi : Inv s) (phys : Nat → Nat)
    (lock cond wake : Nat) (xchg : Bool) (ht : (s.pc t).away) :
    Inv (futexWaitOp phys s t lock cond wake xchg) := by
  rw [FutexTable.futexWaitOp]
  split
  · obtain ⟨s', hs', hi', ht', hlive, haddr⟩ : ∃ s', (match lookup s (phys lock) with
        | some p => FutexTable.notify s p wake
        | none => s) = s' ∧ Inv s' ∧ (s'.pc t).away ∧ s'.live = s.live ∧
          ∀ q, (s'.ent q).addr = (s.ent q).addr := by
      split
      · next p hp =>
        have hp := (hi.lookup_eq_some.1 hp).1
        obtain ⟨hpc, hkeep⟩ := hi.notify_keeps hp ht wake
        exact ⟨_, rfl, hi.notify hp wake, by rw [hpc]; exact ht, hkeep⟩
      · exact ⟨s, rfl, hi, ht, rfl, fun _ => rfl⟩
    simp only [hs']
    split
    · next p hp =>
      obtain ⟨hmem, hcond⟩ := hi.lookup_eq_some.1 hp
      exact hi'.sleepOn ht' (by rw [hlive]; exact hmem) ((haddr p).trans hcond) _
    · exact hi'.setPc ht' _
  · exact hi.setPc ht _

/-! ## Leaving -/

section Leave

variable {uptr : Nat} {timedOut : Bool}

section

variable (hi : Inv s) (ht : s.pc t = .resumed addr p (.wait uptr) timedOut)
include hi ht

theorem Inv.leave_more (hmore : (s.ent p).waiterCount - 1 ≠ 0) (last : Option Status) : Inv { s with
      ent := update s.ent p { s.ent p with waiterCount := (s.ent p).waiterCount - 1 }
      pc := update s.pc t (.running last) } := by
  obtain ⟨hp, -⟩ := hi.of_pc ht
  have hold := hi.ents p hp
  obtain ⟨F, -, hF, hcard⟩ := hold.count
  have htF : t ∈ F := (hF t).mpr (by rw [ht]; rfl)
  have hasleep : ∀ u q, (update s.pc t (.running last) u).asleepOn = some q ↔
      (s.pc u).asleepOn = some q := fun u q => on_update (by rw [ht]; rfl) u
  refine hi.setEnt rfl (hi.pcs_update trivial) ⟨hold.nodup, fun u => ?_, F.erase t, ?_,
    fun u => ?_, ?_⟩ (fun u q _ => hasleep u q)
    fun u q hq => on_update (by simp [ht, countedOn, Ne.symm hq]) u
  · rw [hold.mem_wake, hasleep]
  · rw [← card_pos, Finset.card_erase_of_mem htF]
    omega
  · rw [mem_erase, hF]
    by_cases hu : u = t
    · simp [hu, countedOn]
    · simp [hu]
  · rw [Finset.card_erase_of_mem htF, ← hcard]

theorem Inv.only_counted (hlast : (s.ent p).waiterCount - 1 = 0) :
    (s.ent p).waiterCount = 1 ∧ ∀ u, (s.pc u).countedOn = some p → u = t := by
  obtain ⟨F, hne, hF, hcard⟩ := (hi.ents p (hi.of_pc ht).1).count
  have hpos := card_pos.mpr hne
  have hone : F.card = 1 := by omega
  obtain ⟨w, hw⟩ := Finset.card_eq_one.mp hone
  have htF : t ∈ F := (hF t).mpr (by rw [ht]; rfl)
  refine ⟨by omega, fun u hu => ?_⟩
  have huF := (hF u).mpr hu
  rw [hw, Finset.mem_singleton] at huF htF
  rw [huF, htF]

theorem Inv.leave_last (hlast : (s.ent p).waiterCount - 1 = 0) (huptr : uptr = addr)
    (hwake : (s.ent p).wake = []) (last : Option Status) :
    Inv (remove (FutexTable.setPc s t (.running last)) uptr p) := by
  obtain ⟨hp, haddr⟩ := hi.of_pc ht
  obtain ⟨-, honly⟩ := hi.only_counted ht hlast
  have hself : s.tab addr = some p := (hi.tab addr p).mpr ⟨hp, haddr⟩
  -- nobody is at the entry any more
  have hasleep : ∀ u, (s.pc u).asleepOn ≠ some p := by
    intro u hu
    rw [← (hi.ents p hp).mem_wake, hwake] at hu
    cases hu
  subst huptr
  refine ⟨fun a q => ?_, (forall_update_iff s.pc fun _ => PcOk _).2 ⟨trivial, fun u hu => ?_⟩,
    fun q hq => ?_⟩
  · show update s.tab uptr none a = some q ↔ q ∈ s.live.erase p ∧ (update s.ent p _ q).addr = a
    by_cases hq : q = p
    · rw [hq]
      by_cases ha : a = uptr
      · simp [ha]
      · rw [update_of_ne ha, hi.tab, haddr]
        simp [Ne.symm ha]
    · rw [update_of_ne hq]
      by_cases ha : a = uptr
      · have := hi.tab uptr q
        rw [hself] at this
        simp [ha, Ne.symm hq] at this ⊢
        exact fun _ => this
      · rw [update_of_ne ha, hi.tab]
        simp [hq]
  · refine (hi.pcs u).mono fun q hq hat => ?_
    have hqp : q ≠ p := by
      rintro rfl
      exact hat.elim (hasleep u) fun hc => hu (honly u hc)
    refine ⟨mem_erase.mpr ⟨hqp, hq⟩, ?_⟩
    show (update s.ent p _ q).addr = _
    rw [update_of_ne hqp]
  · show EntOk (update s.pc t (.running last)) q (update s.ent p _ q)
    obtain ⟨hqp, hq⟩ := mem_erase.mp hq
    rw [update_of_ne hqp]
    exact (hi.ents q hq).congr (on_update (by rw [ht]; rfl))
      (on_update (by simp [ht, countedOn, Ne.symm hqp]))

/-- Otherwise the entry stays in the table, or somebody stays asleep without one. -/
theorem Inv.bad_leave (hno : ¬ (uptr = addr ∧ (s.ent p).wake = [])) (last : Option Status) :
    ¬ Good (remove (FutexTable.setPc s t (.running last)) uptr p) := by
  obtain ⟨hp, haddr⟩ := hi.of_pc ht
  have hself : s.tab addr = some p := (hi.tab addr p).mpr ⟨hp, haddr⟩
  intro hg
  by_cases huptr : uptr = addr
  · obtain ⟨u, hu⟩ := exists_mem_of_ne_nil _ fun hnil => hno ⟨huptr, hnil⟩
    have hasleep := ((hi.ents p hp).mem_wake u).mp hu
    have hut : u ≠ t := by
      rintro rfl
      rw [ht] at hasleep
      cases hasleep
    cases hpc : s.pc u with
    | asleep a q call =>
      rw [hpc] at hasleep
      cases hasleep
      have hafter := (hg.asleep u a p call ((update_of_ne hut _ _).trans hpc)).2
      exact Finset.notMem_erase p s.live hafter
    | _ => rw [hpc] at hasleep; cases hasleep
  · have hfound : (remove (FutexTable.setPc s t (.running last)) uptr p).tab addr = some p :=
      (update_of_ne (Ne.symm huptr) _ _).trans hself
    exact Finset.notMem_erase p s.live (hg.found addr p hfound)

end

end Leave

/-! ## Runs -/

section Runs

variable {phys : Nat → Nat} {s' : St} {a : Act}

theorem step_inv (hi : Inv s) (hs : step phys s a = some s') (hm : Meets s a) : Inv s' := by
  cases a with
  | wait t uptr new =>
    obtain ⟨h, ⟨⟩⟩ := ite_none_right_eq_some.1 hs
    exact hi.futexWaitEnter phys uptr (away_of_isRunning h.1) h.2
  | waitOp t lock cond wake xchg =>
    obtain ⟨h, ⟨⟩⟩ := ite_none_right_eq_some.1 hs
    exact hi.futexWaitOp phys lock cond wake xchg (away_of_isRunning h)
  | wake uaddr n =>
    cases hs
    exact hi.futexWake phys uaddr n
  | wakeOp uaddr wake wake2 cmp =>
    cases hs
    exact hi.futexWakeOp phys uaddr wake wake2 cmp
  | timeout t =>
    cases h : s.pc t <;> simp only [step, h, some.injEq, reduceCtorEq] at hs
    exact hs ▸ hi.expire h
  | leave t =>
    cases h : s.pc t <;> simp only [step, h, some.injEq, reduceCtorEq] at hs
    subst hs
    rename_i addr p call timedOut
    cases call with
    | wait uptr =>
      rw [leave, futexWaitLeave]
      simp only [Meets, h] at hm
      split
      · next hlast =>
        obtain ⟨huptr, hwake⟩ := hm (hi.only_counted h hlast).1
        exact hi.leave_last h hlast huptr hwake _
      · next hmore => exact hi.leave_more h hmore _
    | waitOp n => exact hi.setPc (by rw [h]; exact ⟨rfl, rfl⟩) _

/-- A step that leads to a right state meets the condition. -/
theorem meets_of_good (hi : Inv s) (hs : step phys s a = some s') (hg : Good s') : Meets s a := by
  cases a with
  | leave t =>
    rw [Meets]
    split
    · next addr p uptr timedOut h =>
      intro hone
      by_contra hno
      refine hi.bad_leave h hno (some (waitStatus timedOut)) ?_
      simp only [step, h, leave, futexWaitLeave, setPc, hone, Nat.sub_self, if_true] at hs
      exact some.inj hs ▸ hg
    · trivial
  | _ => trivial

end Runs

/-- For every sequence of calls and timeouts of any number of threads. -/
theorem good_run_iff (phys : Nat → Nat) (ent : Nat → Ent) (as : List Act) :
    (lts phys).Always Good (St.initial ent) as ↔ (lts phys).Meets Meets (St.initial ent) as :=
  LTS.always_iff (I := Inv) (fun _ hi => hi.good) (fun _ _ _ hi hm hs => step_inv hi hs hm)
    (fun _ _ _ hi hno hs hg => hno (meets_of_good hi hs hg)) (inv_initial ent) as

/-- A thread waits at the user address 5 of the physical address 9, is woken and leaves. The table
still has its entry, which has been deleted. -/
theorem deleted_entry_kept : ∃ s, (lts fun _ => 9).Reachable s ∧ s.tab 9 = some 1 ∧ 1 ∉ s.live ∧
    ¬ Good s := by
  have hrun : (lts fun _ => 9).Run (St.initial fun _ => ⟨0, 0, []⟩)
      [.wait 0 5 1, .wake 5 1, .leave 0] _ := .cons rfl (.cons rfl (.cons rfl (.nil _)))
  exact ⟨_, ⟨_, _, ⟨_, rfl⟩, hrun⟩, rfl, by decide, fun hg => absurd (hg.found 9 1 rfl) (by decide)⟩

end Dgos.L5.FutexTable
