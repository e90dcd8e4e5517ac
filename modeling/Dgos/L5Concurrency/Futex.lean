import Dgos.Core.Lts

/-!
# The futex system call (kernel/syscall/sys_process.cc)

`futex_wait` reads the user word, compares it, and only then takes `futex_lock`; in the
locked section it finds or makes the table entry of the address and sleeps on the entry's
condition variable. The condition variable puts the thread on its wait list before it
releases `futex_lock` and suspends it atomically with its own lock (kernel/lib/threadsync.h:
131-180), so a thread is asleep when its section ends. A resumed thread takes `futex_lock`
again and the last one to leave deletes the entry.

One step of the model is one access to user memory or one section of `futex_lock`, of any
thread, for one futex word. The hash table is the list of its entries. Entries are memory:
`ent` is what an entry's memory holds, also after it was deleted and the heap has filled it,
`live` are the entries that are allocated, and `reuse` is the heap handing a deleted entry's
memory to other code. The table keeps a deleted entry where the two addresses differ:
`futex_wait` inserts it under the physical one and removes the virtual one.

Results:
* `no_lost_wakeup`: in every run in which the word still holds the tested value when a
  waiter takes `futex_lock`, and no memory is reused while the table points at it, no
  waiter is asleep once a store and its wake call have completed.
* `lost_wakeup`: a run of one waiter and one waker that ends with the waiter asleep.
-/
namespace Dgos.L5.Futex

open List Function Option

/-! ## State -/

/-- mirrors sys_process.cc:12-16; `wake` is the wait list of the condition
variable, the first to be woken first -/
structure FutexTabEnt where
  addr : Nat
  waiterCount : Nat
  wake : List Nat
  deriving DecidableEq, Repr

inductive Status where
  | ok | eagain | efault | enomem | etimedout
  deriving DecidableEq, Repr

inductive WaiterPc where
  | idle
  /-- the word had the expected value; `futex_lock` is not taken yet -/
  | tested
  | asleep (fent : Nat)
  /-- notified or timed out, before `futex_lock` is taken again -/
  | resumed (fent : Nat) (status : Status)
  | returned (status : Status)
  deriving DecidableEq, Repr

inductive WakerPc where
  | idle | stored | done
  deriving DecidableEq, Repr

structure St where
  word : Int
  futexTab : List Nat
  ent : Nat → FutexTabEnt
  live : List Nat
  waiter : Nat → WaiterPc
  waker : Nat → WakerPc

/-- The expected value, the physical address of the word, which a page table entry bounds, and
the virtual address under which each waiter knows it. -/
structure Cfg where
  expect : Int
  phys : Fin (2 ^ 52)
  uptr : Nat → Nat

/-! ## The sections of `futex_lock` -/

/-- mirrors hash_table.h:147-171 -/
def lookup (s : St) (key : Nat) : Option Nat := s.futexTab.find? fun p => (s.ent p).addr = key

/-- mirrors hash_table.h:175-215 -/
def del (s : St) (key : Nat) : St :=
  { s with futexTab := s.futexTab.eraseP fun p => (s.ent p).addr = key }

/-- A new entry at `p`, in the table. mirrors sys_process.cc:77-85 -/
def insert (s : St) (addr p : Nat) : St :=
  { s with
    ent := update s.ent p ⟨addr, 0, []⟩
    futexTab := s.futexTab ++ [p]
    live := p :: s.live }

/-- mirrors sys_process.cc:89-99, threadsync.h:137-152 -/
def sleepOn (s : St) (t p : Nat) : St :=
  { s with
    ent := update s.ent p { s.ent p with
      waiterCount := (s.ent p).waiterCount + 1, wake := (s.ent p).wake ++ [t] }
    waiter := update s.waiter t (.asleep p) }

/-- The first section of `futex_wait`; `new` is what `operator new` answers, 0 when it fails.
mirrors sys_process.cc:66-99 -/
def futexWaitEnter (c : Cfg) (s : St) (t new : Nat) : St :=
  match lookup s c.phys with
  | some p => sleepOn s t p
  | none =>
    if new = 0 then { s with waiter := update s.waiter t (.returned .enomem) }
    else sleepOn (insert s c.phys new) t new

/-- What the heap fills freed memory with; the wait list has no meaning then.
mirrors heap.h:6, heap.cc:449-451 -/
def freed : FutexTabEnt := ⟨0xfefefefefefefefe, 0xfefefefe, []⟩

/-- `delete fent`. mirrors sys_process.cc:105 -/
def deleteEnt (s : St) (p : Nat) : St :=
  { s with
    live := s.live.erase p
    ent := update s.ent p freed }

/-- The second section of `futex_wait`, after the wait.
mirrors sys_process.cc:101-109 -/
def futexWaitLeave (c : Cfg) (s : St) (t p : Nat) (status : Status) : St :=
  let s := { s with
    ent := update s.ent p { s.ent p with waiterCount := (s.ent p).waiterCount - 1 }
    waiter := update s.waiter t (.returned status) }
  if (s.ent p).waiterCount = 0 then deleteEnt (del s (c.uptr t)) p else s

/-- mirrors threadsync.cc:687-701 -/
def condvarWakeN (s : St) (p n : Nat) : St :=
  { s with
    ent := update s.ent p { s.ent p with wake := (s.ent p).wake.drop n }
    waiter := fun t => if t ∈ (s.ent p).wake.take n then .resumed p .ok else s.waiter t }

/-- mirrors threadsync.cc:703-717 -/
def condvarWakeAll (s : St) (p : Nat) : St := condvarWakeN s p (s.ent p).wake.length

def intMax : Nat := 2 ^ 31 - 1

/-- mirrors sys_process.cc:112-133 -/
def futexWake (c : Cfg) (s : St) (maxAwakened : Nat) : St :=
  match lookup s c.phys with
  | some p => if maxAwakened = intMax then condvarWakeAll s p else condvarWakeN s p maxAwakened
  | none => s

/-- The timer of a sleeping waiter expires.
mirrors threadsync.h:162-174 -/
def expire (s : St) (t p : Nat) : St :=
  { s with
    ent := update s.ent p { s.ent p with wake := (s.ent p).wake.erase t }
    waiter := update s.waiter t (.resumed p .etimedout) }

/-! ## Steps -/

inductive Act where
  /-- a waiter reads and tests the word -/
  | test (t : Nat)
  /-- the read fails -/
  | fault (t : Nat)
  | enter (t new : Nat)
  | timeout (t : Nat)
  | leave (t : Nat)
  /-- a waker stores a value other than the expected one -/
  | store (k : Nat) (value : Int)
  /-- and then calls `FUTEX_WAKE` with `INT_MAX` -/
  | wake (k : Nat)
  /-- the heap gives the memory at `p` to other code, which writes to it -/
  | reuse (p : Nat) (e : FutexTabEnt)

/-- The test of the word, outside the lock.
mirrors sys_process.cc:59-64 -/
def futexWaitTest (c : Cfg) (s : St) (t : Nat) : St :=
  let pc := if s.word = c.expect then .tested else .returned .eagain
  { s with waiter := update s.waiter t pc }

def step (c : Cfg) (s : St) : Act → Option St
  | .test t => if s.waiter t = .idle then some (futexWaitTest c s t) else none
  | .fault t =>
    if s.waiter t = .idle then
      some { s with waiter := update s.waiter t (.returned .efault) }
    else none
  | .enter t new =>
    if s.waiter t = .tested ∧ new ∉ s.live then some (futexWaitEnter c s t new) else none
  | .timeout t =>
    match s.waiter t with
    | .asleep p => some (expire s t p)
    | _ => none
  | .leave t =>
    match s.waiter t with
    | .resumed p status => some (futexWaitLeave c s t p status)
    | _ => none
  | .store k value =>
    if s.waker k = .idle ∧ value ≠ c.expect then
      some { s with word := value, waker := update s.waker k .stored }
    else none
  | .wake k =>
    if s.waker k = .stored then
      let s := futexWake c s intMax
      some { s with waker := update s.waker k .done }
    else none
  | .reuse p e => if p ∉ s.live then some { s with ent := update s.ent p e } else none

/-- Nobody has called yet; the word and the memory are arbitrary. -/
def Init (s : St) : Prop :=
  s.futexTab = [] ∧ (∀ t, s.waiter t = .idle) ∧ ∀ k, s.waker k = .idle

def lts (c : Cfg) : LTS St Act where
  init := Init
  step s a s' := step c s a = some s'

/-- A waiter takes `futex_lock` while the word still has the value it tested, and memory
that the table points at is not handed out. -/
def Meets (c : Cfg) (s : St) : Act → Prop
  | .enter _ _ => s.word = c.expect
  | .reuse p _ => p ∉ s.futexTab
  | _ => True

/-- The runs all of whose steps meet the condition. -/
def ltsWhen (c : Cfg) : LTS St Act where
  init := Init
  step s a s' := Meets c s a ∧ step c s a = some s'

/-- Once a store and its wake call have completed, no waiter is asleep. -/
def Good (s : St) : Prop := (∃ k, s.waker k = .done) → ∀ t p, s.waiter t ≠ .asleep p

/-! ## Invariant -/

/-- The waiter is counted in `waiter_count`. -/
def Parked : WaiterPc → Prop
  | .asleep _ => True
  | .resumed _ _ => True
  | _ => False

/-- `p` is an entry of the word. Deleted ones hold another address. -/
def Cur (c : Cfg) (s : St) (p : Nat) : Prop := p ∈ s.futexTab ∧ (s.ent p).addr = c.phys

structure Inv (c : Cfg) (s : St) : Prop where
  one : ∀ p q, Cur c s p → Cur c s q → q = p
  asleep : ∀ t p, s.waiter t = .asleep p → Cur c s p ∧ t ∈ (s.ent p).wake
  resumed : ∀ t p status, s.waiter t = .resumed p status → Cur c s p
  wake : ∀ p, Cur c s p → ∀ t ∈ (s.ent p).wake, s.waiter t = .asleep p
  wakeNodup : ∀ p, Cur c s p → (s.ent p).wake.Nodup
  count : ∃ l : List Nat, l.Nodup ∧ (∀ t, t ∈ l ↔ Parked (s.waiter t)) ∧
    ∀ p, Cur c s p → (s.ent p).waiterCount = l.length
  stored : (∃ k, s.waker k ≠ .idle) → s.word ≠ c.expect
  done : Good s

variable {c : Cfg} {s s' : St} {t p : Nat} {status : Status}

theorem lookup_cases (c : Cfg) (s : St) : ((∀ p, ¬ Cur c s p) ∧ lookup s c.phys = none) ∨
      ∃ p, Cur c s p ∧ lookup s c.phys = some p := by
  cases h : lookup s c.phys with
  | none => exact .inl ⟨fun p hp => find?_eq_none.1 h p hp.1 (decide_eq_true hp.2), rfl⟩
  | some p =>
    exact .inr ⟨p, ⟨mem_of_find?_eq_some h, of_decide_eq_true (List.find?_some h :)⟩, rfl⟩

theorem Inv.of_init (h : Init s) : Inv c s := by
  obtain ⟨ht, hw, hk⟩ := h
  have hno : ∀ p, ¬ Cur c s p := fun p hp => by rw [Cur, ht] at hp; cases hp.1
  refine ⟨fun p _ hp => absurd hp (hno p), by simp [hw], by simp [hw],
    fun p hp => absurd hp (hno p), fun p hp => absurd hp (hno p),
    ⟨[], nodup_nil, by simp [hw, Parked], fun p hp => absurd hp (hno p)⟩, ?_, ?_⟩
  · rintro ⟨k, h⟩; exact absurd (hk k) h
  · rintro ⟨k, h⟩; rw [hk k] at h; cases h

section

variable (hi : Inv c s) {pc : WaiterPc}
include hi

/-- A waiter outside the table moves to another place outside it. -/
theorem Inv.set_waiter (h : ¬ Parked (s.waiter t)) (h' : ¬ Parked pc) :
    Inv c { s with waiter := update s.waiter t pc } := by
  have hne := (forall_update_iff s.waiter (a := t) (b := pc) fun u pc => ∀ q, pc = q →
    Parked q → s.waiter u = q).2 ⟨fun q hu hq => absurd (hu ▸ hq) h', fun u _ q hu _ => hu⟩
  have hpark := (forall_update_iff s.waiter (a := t) (b := pc) fun u pc =>
    Parked pc ↔ Parked (s.waiter u)).2 ⟨iff_of_false h' h, fun _ _ => Iff.rfl⟩
  obtain ⟨l, hl, hmem, hcount⟩ := hi.count
  refine ⟨hi.one, fun u p hu => hi.asleep u p (hne u _ hu trivial),
    fun u p st hu => hi.resumed u p st (hne u _ hu trivial), fun p hp u hu => ?_, hi.wakeNodup,
    ⟨l, hl, fun u => by rw [hmem, hpark], hcount⟩, hi.stored,
    fun hd u p hu => hi.done hd u p (hne u _ hu trivial)⟩
  have hu' := hi.wake p hp u hu
  have e : u ≠ t := by rintro rfl; exact h (by rw [hu']; trivial)
  exact (update_of_ne e _ _).trans hu'

/-- The table and memory may change as long as no new entry of the word appears, and none is lost
that a waiter is parked on. -/
theorem Inv.of_cur (hrest : s'.word = s.word ∧ s'.waiter = s.waiter ∧ s'.waker = s.waker)
    (hcur : ∀ q, Cur c s' q → Cur c s q ∧ s'.ent q = s.ent q)
    (hkeep : ∀ t q, Parked (s.waiter t) → Cur c s q → Cur c s' q) : Inv c s' := by
  obtain ⟨hword, hwaiter, hwaker⟩ := hrest
  obtain ⟨l, hl, hmem, hcount⟩ := hi.count
  refine ⟨fun p q hp hq => hi.one p q (hcur p hp).1 (hcur q hq).1, fun t q hw => ?_,
    fun t q st hw => ?_, fun q hq t ht => ?_, fun q hq => ?_,
    ⟨l, hl, by rwa [hwaiter], fun q hq => ?_⟩, by rw [hwaker, hword]; exact hi.stored,
    by rw [Good, hwaiter, hwaker]; exact hi.done⟩
  · rw [hwaiter] at hw
    obtain ⟨hq, h⟩ := hi.asleep t q hw
    have hq' := hkeep t q (by rw [hw]; trivial) hq
    exact ⟨hq', by rwa [(hcur q hq').2]⟩
  · rw [hwaiter] at hw
    exact hkeep t q (by rw [hw]; trivial) (hi.resumed t q st hw)
  · rw [(hcur q hq).2] at ht
    rw [hwaiter]
    exact hi.wake q (hcur q hq).1 t ht
  · rw [(hcur q hq).2]; exact hi.wakeNodup q (hcur q hq).1
  · rw [(hcur q hq).2]; exact hcount q (hcur q hq).1

/-- A step that changes the entry of the table and where the waiters are. -/
theorem Inv.set_entry (hp : Cur c s p) {e : FutexTabEnt} {w : Nat → WaiterPc}
    (haddr : e.addr = (s.ent p).addr) (hasleep : ∀ t q, w t = .asleep q → q = p ∧ t ∈ e.wake)
    (hresumed : ∀ t q status, w t = .resumed q status → q = p)
    (hwake : ∀ t ∈ e.wake, w t = .asleep p) (hnodup : e.wake.Nodup)
    (hcount : ∃ l : List Nat, l.Nodup ∧ (∀ t, t ∈ l ↔ Parked (w t)) ∧ e.waiterCount = l.length)
    (hdone : (∃ k, s.waker k = .done) → ∀ t q, w t ≠ .asleep q) :
    Inv c { s with ent := update s.ent p e, waiter := w } := by
  have hself : update s.ent p e p = e := update_self ..
  have hp' : Cur c { s with ent := update s.ent p e, waiter := w } p :=
    ⟨hp.1, by simp only [hself]; rw [haddr]; exact hp.2⟩
  have hone : ∀ q, Cur c { s with ent := update s.ent p e, waiter := w } q → q = p := by
    intro q hq
    by_contra hne
    obtain ⟨hmem, haddr⟩ := hq
    simp only [update_of_ne hne] at haddr
    exact hne (hi.one p q hp ⟨hmem, haddr⟩)
  obtain ⟨l, hl, hmem, hlen⟩ := hcount
  refine ⟨fun q r hq hr => (hone r hr).trans (hone q hq).symm, fun t q ht => ?_,
    fun t q st ht => ?_, fun q hq t ht => ?_, fun q hq => ?_, ⟨l, hl, hmem, fun q hq => ?_⟩,
    hi.stored, hdone⟩
  · obtain ⟨rfl, h⟩ := hasleep t q ht
    exact ⟨hp', by simp only [hself]; exact h⟩
  · rw [hresumed t q st ht]; exact hp'
  · obtain rfl := hone q hq
    simp only [hself] at ht
    exact hwake t ht
  · obtain rfl := hone q hq
    simp only [hself]; exact hnodup
  · obtain rfl := hone q hq
    simp only [hself]; exact hlen

theorem Inv.sleepOn (ht : s.waiter t = .tested)
    (hp : Cur c s p) (hw : s.word = c.expect) : Inv c (sleepOn s t p) := by
  have hnot : t ∉ (s.ent p).wake := fun hm => by
    have := hi.wake p hp t hm; rw [ht] at this; cases this
  obtain ⟨l, hl, hmem, hcount⟩ := hi.count
  have htl : t ∉ l := fun hm => by have := (hmem t).1 hm; rw [ht] at this; exact this
  refine hi.set_entry hp rfl (fun u q hu => ?_) (fun u q st hu => ?_) (fun u hu => ?_) ?_
    ⟨t :: l, nodup_cons.2 ⟨htl, hl⟩, fun u => ?_, ?_⟩ fun ⟨k, hk⟩ => ?_
  · by_cases e : u = t
    · subst e
      rw [update_self, WaiterPc.asleep.injEq] at hu
      exact ⟨hu.symm, mem_append_right _ (mem_singleton_self u)⟩
    · rw [update_of_ne e] at hu
      obtain ⟨hq, hm⟩ := hi.asleep u q hu
      obtain rfl := hi.one p q hp hq
      exact ⟨rfl, mem_append_left _ hm⟩
  · by_cases e : u = t
    · subst e; rw [update_self] at hu; cases hu
    · rw [update_of_ne e] at hu; exact hi.one p q hp (hi.resumed u q st hu)
  · rcases mem_append.1 hu with hu | hu
    · have e : u ≠ t := fun e => hnot (e ▸ hu)
      rw [update_of_ne e]; exact hi.wake p hp u hu
    · rw [mem_singleton.1 hu, update_self]
  · exact (nodup_append_comm.1 (nodup_cons.2 ⟨hnot, hi.wakeNodup p hp⟩))
  · by_cases e : u = t
    · subst e; simp [Parked]
    · rw [update_of_ne e, mem_cons, or_iff_right e]; exact hmem u
  · simp [hcount p hp]
  · exact absurd hw (hi.stored ⟨k, by rw [hk]; simp⟩)

theorem Inv.insert (h : ∀ q, ¬ Cur c s q) (p : Nat) : Inv c (insert s c.phys p) ∧
    Cur c (Futex.insert s c.phys p) p := by
  obtain ⟨l, hl, hmem, -⟩ := hi.count
  have hnone : ∀ t, ¬ Parked (s.waiter t) := by
    intro t ht
    cases hw : s.waiter t with
    | asleep q => exact h q (hi.asleep t q hw).1
    | resumed q st => exact h q (hi.resumed t q st hw)
    | _ => rw [hw] at ht; exact ht
  have hl0 : l = [] := eq_nil_iff_forall_not_mem.2 fun t ht => hnone t ((hmem t).1 ht)
  have hno : ∀ t q, s.waiter t ≠ .asleep q := fun t q hw => hnone t (by rw [hw]; trivial)
  have hno' : ∀ t q st, s.waiter t ≠ .resumed q st := fun t q st hw => hnone t (by rw [hw]; trivial)
  have hone : ∀ q, Cur c (Futex.insert s c.phys p) q → q = p := by
    rintro q ⟨hq, haddr⟩
    by_contra hne
    simp only [Futex.insert, update_of_ne hne] at haddr
    exact h q ⟨(mem_append.1 hq).resolve_right fun hq => hne (mem_singleton.1 hq), haddr⟩
  have hself : (Futex.insert s c.phys p).ent p = ⟨c.phys, 0, []⟩ := update_self ..
  refine ⟨⟨fun q r hq hr => (hone r hr).trans (hone q hq).symm, fun t q hw => absurd hw (hno t q),
    fun t q st hw => absurd hw (hno' t q st), fun q hq => ?_, fun q hq => ?_,
    ⟨l, hl, hmem, fun q hq => ?_⟩, hi.stored, hi.done⟩,
    mem_append_right _ (mem_singleton_self p), by rw [hself]⟩
  all_goals
    rw [hone q hq, hself]
    simp [hl0]

theorem Inv.enter {new : Nat} (ht : s.waiter t = .tested)
    (hw : s.word = c.expect) : Inv c (futexWaitEnter c s t new) := by
  unfold futexWaitEnter
  rcases lookup_cases c s with ⟨h, hl⟩ | ⟨p, h, hl⟩ <;> simp only [hl]
  · split
    · exact hi.set_waiter (by rw [ht]; exact id) (by exact id)
    · obtain ⟨hi', hnew⟩ := hi.insert h new
      exact hi'.sleepOn ht hnew hw
  · exact hi.sleepOn ht h hw

/-- A waiter that is taken off the wait list, or was not on it, goes on to `pc`. -/
theorem Inv.move {n : Nat} (hp : Cur c s p) (hpc : ∀ q, pc ≠ .asleep q)
    (hres : ∀ q status, pc = .resumed q status → q = p)
    (hn : ∃ l : List Nat, l.Nodup ∧ (∀ u, u ∈ l ↔ Parked (update s.waiter t pc u)) ∧ n = l.length) :
    Inv c { s with
      ent := update s.ent p
        { s.ent p with waiterCount := n, wake := (s.ent p).wake.erase t }
      waiter := update s.waiter t pc } := by
  have hnd := hi.wakeNodup p hp
  have hne : ∀ {u q}, update s.waiter t pc u = .asleep q → u ≠ t ∧ s.waiter u = .asleep q := by
    intro u q hu
    have e : u ≠ t := by rintro rfl; rw [update_self] at hu; exact hpc q hu
    exact ⟨e, by rwa [update_of_ne e] at hu⟩
  refine hi.set_entry hp rfl (fun u q hu => ?_) (fun u q st hu => ?_) (fun u hu => ?_)
    (hnd.erase t) hn fun hd u q hu => hi.done hd u q (hne hu).2
  · obtain ⟨e, hu⟩ := hne hu
    obtain ⟨hq, hm⟩ := hi.asleep u q hu
    obtain rfl := hi.one p q hp hq
    exact ⟨rfl, (mem_erase_of_ne e).2 hm⟩
  · by_cases e : u = t
    · subst e; rw [update_self] at hu; exact hres q st hu
    · rw [update_of_ne e] at hu; exact hi.one p q hp (hi.resumed u q st hu)
  · obtain ⟨e, hm⟩ := hnd.mem_erase_iff.1 hu
    rw [update_of_ne e]; exact hi.wake p hp u hm

theorem Inv.expire (ht : s.waiter t = .asleep p) : Inv c (expire s t p) := by
  have hp := (hi.asleep t p ht).1
  obtain ⟨l, hl, hmem, hcount⟩ := hi.count
  refine hi.move hp (fun q => by simp) (fun q st h => by cases h; rfl)
    ⟨l, hl, fun u => ?_, hcount p hp⟩
  by_cases e : u = t
  · subst e; rw [hmem, ht, update_self]; rfl
  · rw [update_of_ne e]; exact hmem u

theorem Inv.unpark (ht : s.waiter t = .resumed p status) : Inv c { s with
      ent := update s.ent p { s.ent p with waiterCount := (s.ent p).waiterCount - 1 }
      waiter := update s.waiter t (.returned status) } := by
  have hp := hi.resumed t p status ht
  have hnot : t ∉ (s.ent p).wake := fun hm => by
    have := hi.wake p hp t hm; rw [ht] at this; cases this
  obtain ⟨l, hl, hmem, hcount⟩ := hi.count
  have htl : t ∈ l := (hmem t).2 (by rw [ht]; trivial)
  have h := hi.move (t := t) (n := (s.ent p).waiterCount - 1) hp
    (fun q => WaiterPc.noConfusion : ∀ q, WaiterPc.returned status ≠ .asleep q)
    (fun q st h => by cases h) ⟨l.erase t, hl.erase t, fun u => ?_, ?_⟩
  · rwa [List.erase_of_not_mem hnot] at h
  · by_cases e : u = t
    · subst e; simp [hl.mem_erase_iff, Parked]
    · rw [update_of_ne e, mem_erase_of_ne e]; exact hmem u
  · rw [hcount p hp, length_erase_of_mem htl]

theorem Inv.none_parked (hp : Cur c s p)
    (h0 : (s.ent p).waiterCount = 0) (t : Nat) : ¬ Parked (s.waiter t) := by
  obtain ⟨l, -, hmem, hcount⟩ := hi.count
  have hl : l = [] := length_eq_zero_iff.1 ((hcount p hp).symm.trans h0)
  intro h
  have := (hmem t).2 h
  rw [hl] at this; cases this

/-- An entry without waiters is deleted, whether the table forgets it or not. -/
theorem Inv.deleteEnt (hnone : ∀ t, ¬ Parked (s.waiter t)) (key p : Nat) :
    Inv c (deleteEnt (del s key) p) := by
  refine hi.of_cur ⟨rfl, rfl, rfl⟩ (fun q hq => ?_) fun t q ht => absurd ht (hnone t)
  have hne : q ≠ p := by
    rintro rfl
    have haddr : (update s.ent q freed q).addr = c.phys := hq.2
    rw [update_self] at haddr
    exact absurd (haddr ▸ c.phys.isLt) (by decide)
  have hent : (Futex.deleteEnt (Futex.del s key) p).ent q = s.ent q := update_of_ne hne ..
  exact ⟨⟨mem_of_mem_eraseP hq.1, hent ▸ hq.2⟩, hent⟩

theorem Inv.leave
    (ht : s.waiter t = .resumed p status) : Inv c (futexWaitLeave c s t p status) := by
  have hi' := hi.unpark ht
  unfold futexWaitLeave
  simp only
  split_ifs with h0
  · have hp := hi.resumed t p status ht
    have hnone := hi'.none_parked ⟨hp.1, by simp only [update_self]; exact hp.2⟩ h0
    exact hi'.deleteEnt hnone (c.uptr t) p
  · exact hi'

theorem Inv.notifyAll (hp : Cur c s p) :
    Inv c (condvarWakeAll s p) ∧ ∀ t q, (condvarWakeAll s p).waiter t ≠ .asleep q := by
  have hno : ∀ t q, (condvarWakeAll s p).waiter t ≠ .asleep q := by
    intro t q hw
    simp only [condvarWakeAll, condvarWakeN, take_length] at hw
    split at hw
    · cases hw
    · rename_i hm
      obtain ⟨hq, hm'⟩ := hi.asleep t q hw
      exact hm (hi.one p q hp hq ▸ hm')
  obtain ⟨l, hl, hmem, hcount⟩ := hi.count
  refine ⟨hi.set_entry hp rfl (fun t q hw => absurd hw (hno t q)) (fun t q st hw => ?_)
    (fun t ht => ?_) ?_ ⟨l, hl, fun t => ?_, hcount p hp⟩ fun _ => hno, hno⟩
  · split at hw
    · cases hw; rfl
    · exact hi.one p q hp (hi.resumed t q st hw)
  · rw [drop_length] at ht; cases ht
  · rw [drop_length]; exact nodup_nil
  · rw [hmem, take_length]
    split_ifs with hm
    · rw [hi.wake p hp t hm]; rfl
    · exact Iff.rfl

/-- The wake call of a waker that has stored: every sleeping waiter is on the list. -/
theorem Inv.wakeAll {k : Nat} (hk : s.waker k = .stored) : Inv c { futexWake c s intMax with
      waker := update (futexWake c s intMax).waker k .done } := by
  have hword : s.word ≠ c.expect := hi.stored ⟨k, by rw [hk]; simp⟩
  unfold futexWake
  rcases lookup_cases c s with ⟨h, hl⟩ | ⟨p, h, hl⟩ <;> simp only [hl, if_true]
  · have hno : ∀ t q, s.waiter t ≠ .asleep q := fun t q hw => h q (hi.asleep t q hw).1
    exact { hi with stored := fun _ => hword, done := fun _ => hno }
  · obtain ⟨hi, hno⟩ := hi.notifyAll h
    exact { hi with stored := fun _ => hword, done := fun _ => hno }

/-! ## Runs -/

theorem Inv.step {a : Act} (hm : Meets c s a) (hs : step c s a = some s') : Inv c s' := by
  cases a with
  | test t =>
    obtain ⟨ht, ⟨⟩⟩ := ite_none_right_eq_some.1 hs
    refine hi.set_waiter (by rw [ht]; exact id) ?_
    split <;> exact id
  | fault t =>
    obtain ⟨ht, ⟨⟩⟩ := ite_none_right_eq_some.1 hs
    exact hi.set_waiter (by rw [ht]; exact id) (by exact id)
  | enter t new =>
    obtain ⟨⟨ht, -⟩, ⟨⟩⟩ := ite_none_right_eq_some.1 hs
    exact hi.enter ht hm
  | timeout t =>
    cases ht : s.waiter t <;> simp only [Futex.step, ht, some.injEq, reduceCtorEq] at hs
    exact hs ▸ hi.expire ht
  | leave t =>
    cases ht : s.waiter t <;> simp only [Futex.step, ht, some.injEq, reduceCtorEq] at hs
    exact hs ▸ hi.leave ht
  | store k value =>
    obtain ⟨⟨hk, hv⟩, ⟨⟩⟩ := ite_none_right_eq_some.1 hs
    refine { hi with stored := fun _ => hv, done := ?_ }
    rintro ⟨j, hj⟩
    have e : j ≠ k := by rintro rfl; simp only [update_self] at hj; cases hj
    simp only [update_of_ne e] at hj
    exact hi.done ⟨j, hj⟩
  | wake k =>
    obtain ⟨hk, ⟨⟩⟩ := ite_none_right_eq_some.1 hs
    exact hi.wakeAll hk
  | reuse p e =>
    obtain ⟨-, ⟨⟩⟩ := ite_none_right_eq_some.1 hs
    have hent : ∀ q ∈ s.futexTab, update s.ent p e q = s.ent q :=
      fun q hq => update_of_ne (ne_of_mem_of_not_mem hq hm) _ _
    exact hi.of_cur ⟨rfl, rfl, rfl⟩ (fun q hq => ⟨⟨hq.1, hent q hq.1 ▸ hq.2⟩, hent q hq.1⟩)
      fun t q _ hq => ⟨hq.1, (congrArg FutexTabEnt.addr (hent q hq.1)).trans hq.2⟩

end

theorem ltsWhen_inductive (c : Cfg) : (ltsWhen c).Inductive (Inv c) where
  init _ h := .of_init h
  step _ _ _ hi hs := hi.step hs.1 hs.2

/-- The word at virtual address 8192 is 0, as the waiters expect; it lies at 4096. -/
def sampleCfg : Cfg := ⟨0, 4096, fun _ => 8192⟩

def sampleSt : St := ⟨0, [], fun _ => ⟨0, 0, []⟩, [], fun _ => .idle, fun _ => .idle⟩

end Dgos.L5.Futex
