import Dgos.Core.Lts
import Dgos.L5Concurrency.WaitChain

/-!
# The sleeping mutex (kernel/lib/threadsync.cc)

`mutex_lock` and `mutex_try_lock_until` spin while the mutex is owned and few spins have been
made, then take the spinlock of the mutex, and in that section take the ownership or put a
record on the wait chain and go to sleep. `mutex_unlock` passes the ownership to the first
record of the chain: it takes the record off, writes its thread into `owner` and, after the
section, resumes that thread.

One step is one section of the spinlock, one unlocked test of the spin loop, or one thing that
happens to a sleeping thread: `thread_resume` wakes it with 1, or its timer expires and it
wakes with 0. A thread that wakes with 0 returns false and leaves its record where it is. The
records are on the stacks of the waiting threads: `live` are those whose call has not returned,
any other memory may be written by other code (`scribble`). A failed `assert` stops.

Results:
* `mutex_right_iff`: along a run the mutex has one owner and its chain holds exactly the blocked
  threads if and only if no timer of a sleeping thread expires.
* `expired_thread_owns`: a run in which an unlock gives the mutex to a thread that gave up.
-/
namespace Dgos.L5.Mutex

open WaitChain Option List Function

/-! ## State -/

/-- Where a thread is. -/
inductive Pc where
  | idle
  /-- in `mutex_try_lock`, before its section -/
  | trying
  /-- in the loop of `mutex_lock` or, when timed, of `mutex_try_lock_until` -/
  | spinning (timed : Bool) (spin : Nat)
  /-- in `thread_sleep_release`, with its record -/
  | asleep (timed : Bool) (wait : Nat)
  /-- `thread_sleep_release` is about to return 1 -/
  | woken (wait : Nat)
  /-- outside, after a lock call that returned true -/
  | holds
  /-- in `mutex_unlock` after its section, before `thread_resume` -/
  | resuming (waked : Nat)
  deriving DecidableEq, Repr

/-- `mutex_t`, the memory of links and records, and the threads. -/
structure St where
  owner : Int
  spinCount : Int
  links : ListLinks Nat
  /-- the field `thread` of the record at an address -/
  thread : Nat → Nat
  live : List Nat
  pc : Nat → Pc

open St

/-- `smp` is a `spincount_mask` of -1; the first `cpuCount` threads are idle threads. -/
structure Cfg where
  smp : Bool
  cpuCount : Nat

/-- The address of `mutex->link`. -/
def root : Nat := 0

def spincountMin : Int := 4

def spincountMax : Int := 4096

/-- The mutex as `mutex_init` leaves it, and nobody in a call.
mirrors threadsync.cc:41-49 -/
structure Init (c : Cfg) (s : St) : Prop where
  owner : s.owner = -1
  spinCount : s.spinCount =
    if c.smp then spincountMin + (spincountMax - spincountMin) / 2 else 0
  next : s.links.next root = some root
  prev : s.links.prev root = some root
  live : s.live = []
  pc : ∀ t, s.pc t = .idle

/-! ## The sections of the spinlock -/

def St.goto (s : St) (t : Nat) (pc : Pc) : St := { s with pc := Function.update s.pc t pc }

/-- mirrors threadsync.cc:59-70 -/
def mutexTryLock (s : St) (t : Nat) : St :=
  if s.owner < 0 then { s with owner := t }.goto t .holds else s.goto t .idle

/-- mirrors threadsync.cc:95-107 and 163-175 -/
def takeOwnership (c : Cfg) (s : St) (t : Nat) : St :=
  { s with
    owner := t
    spinCount := if c.smp ∧ s.spinCount < spincountMax then s.spinCount + 1 else s.spinCount
  }.goto t .holds

/-- The two lock functions test different bounds before they reduce the spin count.
mirrors threadsync.cc:112-114 and 180-182 -/
def reduceSpin (c : Cfg) (timed : Bool) (n : Int) : Int :=
  if c.smp ∧ (if timed then spincountMin < n else n < spincountMax) then n - 1 else n

/-- The record goes on the chain and the thread to sleep.
mirrors threadsync.cc:109-125, 177-193 and
kernel/arch/x86_64/cpu/thread_impl.cc:1477-1499 -/
def sleepOnChain (c : Cfg) (s : St) (t : Nat) (timed : Bool) (wait : Nat) : Option St :=
  if t < c.cpuCount then none
  else do
    let links ← threadWaitAdd s.links root wait
    return { s with
      spinCount := reduceSpin c timed s.spinCount
      links := links
      thread := Function.update s.thread wait t
      live := wait :: s.live }.goto t (.asleep timed wait)

/-- The section of `mutex_lock` and `mutex_try_lock_until`; `wait` is where the record is on
the stack.
mirrors threadsync.cc:88-125 and 156-193 -/
def lockSection (c : Cfg) (s : St) (t : Nat) (timed : Bool) (spin wait : Nat) : Option St :=
  if spin < s.spinCount ∧ 0 ≤ s.owner then some (s.goto t (.spinning timed (spin + 1)))
  else if s.owner < 0 then some (takeOwnership c s t)
  else sleepOnChain c s t timed wait

/-- The section of `mutex_unlock`, with its assertion.
mirrors threadsync.cc:212-231 -/
def mutexUnlock (s : St) (t : Nat) : Option St :=
  if s.owner ≠ t then none
  else do
    let first ← s.links.next root
    if first = root then return { s with owner := -1 }.goto t .idle
    else do
      let (_, links) ← threadWaitDel s.links first
      return { s with owner := s.thread first, links := links }.goto t (.resuming (s.thread first))

/-- What a thread does when it was resumed, with the assertions.
mirrors threadsync.cc:127-133 and 195-201 -/
def lockReturn (s : St) (t wait : Nat) : Option St :=
  if s.links.next wait = none ∧ s.links.prev wait = none ∧ s.owner = s.thread wait then
    some ({ s with live := s.live.erase wait }.goto t .holds)
  else none

/-! ## Steps -/

inductive Act where
  /-- the calls, with their assertion that the caller is not the owner -/
  | tryLock (t : Nat)
  | lock (t : Nat) (timed : Bool)
  | trySection (t : Nat)
  /-- one unlocked test that finds the mutex owned -/
  | spin (t : Nat)
  | lockSection (t wait : Nat)
  /-- `spinlock_try_lock_until` gives up -/
  | giveUp (t : Nat)
  /-- the timer of a thread that sleeps in `mutex_try_lock_until` -/
  | expire (t : Nat)
  | unlock (t : Nat)
  /-- `thread_resume` of the unlocking thread finds the thread asleep -/
  | resume (t : Nat)
  | lockReturn (t : Nat)
  /-- other code writes to memory that is no live record -/
  | scribble (a : Nat) (next prev : Option Nat) (thread : Nat)

/-- The thread is in no call. -/
def Pc.outside : Pc → Bool
  | .idle | .holds => true
  | _ => false

def step (c : Cfg) (s : St) : Act → Option St
  | .tryLock t =>
    if (s.pc t).outside ∧ s.owner ≠ t then some (s.goto t .trying) else none
  | .lock t timed =>
    if (s.pc t).outside ∧ s.owner ≠ t then some (s.goto t (.spinning timed 0)) else none
  | .trySection t => if s.pc t = .trying then some (mutexTryLock s t) else none
  | .spin t =>
    match s.pc t with
    | .spinning timed spin =>
      if spin < s.spinCount ∧ 0 ≤ s.owner then some (s.goto t (.spinning timed (spin + 1)))
      else none
    | _ => none
  | .lockSection t wait =>
    match s.pc t with
    | .spinning timed spin =>
      if wait ≠ root ∧ wait ∉ s.live then lockSection c s t timed spin wait else none
    | _ => none
  | .giveUp t =>
    match s.pc t with
    | .spinning true _ => some (s.goto t .idle)
    | _ => none
  | .expire t =>
    match s.pc t with
    | .asleep true wait => some ({ s with live := s.live.erase wait }.goto t .idle)
    | _ => none
  | .unlock t => if (s.pc t).outside then mutexUnlock s t else none
  | .resume t =>
    match s.pc t with
    | .resuming waked =>
      match s.pc waked with
      | .asleep _ wait => some ((s.goto waked (.woken wait)).goto t .idle)
      | _ => none
    | _ => none
  | .lockReturn t =>
    match s.pc t with
    | .woken wait => lockReturn s t wait
    | _ => none
  | .scribble a next prev thread =>
    if a ≠ root ∧ a ∉ s.live then
      some { s with
        links := (s.links.setNext a next).setPrev a prev
        thread := Function.update s.thread a thread }
    else none

def lts (c : Cfg) : LTS St Act where
  init := Init c
  step s a s' := step c s a = some s'

/-! ## What the mutex is for -/

/-- The thread sleeps in a lock call and the mutex has not been passed to it. -/
def Blocked (s : St) (t : Nat) : Prop := (∃ timed w, s.pc t = .asleep timed w) ∧ s.owner ≠ t

/-- The thread has the mutex or is in a lock call that will return true. -/
def Pc.mayOwn : Pc → Prop
  | .holds => True
  | .woken _ => True
  | .asleep _ _ => True
  | _ => False

structure Good (s : St) : Prop where
  exclusive : ∀ t u, s.pc t = .holds → s.pc u = .holds → t = u
  holder : ∀ t, s.pc t = .holds → s.owner = t
  owner : s.owner = -1 ∨ ∃ t : Nat, s.owner = t ∧ (s.pc t).mayOwn
  chain : ∃ l, Ring s.links root l ∧ (l.map s.thread).Nodup ∧ ∀ t, t ∈ l.map s.thread ↔ Blocked s t

/-- The step is not the timer of a sleeping thread. -/
def NoExpiry (_ : St) : Act → Prop
  | .expire _ => False
  | _ => True

/-! ## Invariant -/

/-- The record of the call a thread is in. -/
def Pc.record : Pc → Option Nat
  | .asleep _ w => some w
  | .woken w => some w
  | _ => none

structure Inv (s : St) : Prop where
  holder : ∀ t, s.pc t = .holds → s.owner = t
  woken : ∀ t w, s.pc t = .woken w → s.owner = t
  owner : s.owner = -1 ∨ ∃ t : Nat, s.owner = t ∧ (s.pc t).mayOwn ∧
    ∀ w, (s.pc t).record = some w → s.links.next w = none ∧ s.links.prev w = none
  record : ∀ t w, (s.pc t).record = some w → s.thread w = t ∧ w ≠ root ∧ w ∈ s.live
  chain : Waits s.links root fun w => ∃ t timed, s.pc t = .asleep timed w ∧ s.owner ≠ t
  resuming : ∀ t u, s.pc t = .resuming u → s.owner = u ∧ ∃ timed w, s.pc u = .asleep timed w
  resumer : ∀ t u v w, s.pc t = .resuming v → s.pc u = .resuming w → t = u

variable {c : Cfg} {s s' : St} {t wait : Nat} {timed : Bool}

theorem Inv.of_init (h : Init c s) : Inv s := by
  have hpc := h.pc
  refine ⟨by simp [hpc], by simp [hpc], .inl h.owner, by simp [hpc, Pc.record],
    ⟨[], ⟨by simp, h.next, h.prev⟩, by simp [hpc]⟩, by simp [hpc], by simp [hpc]⟩

/-- The thread neither has the mutex nor sleeps nor resumes another. -/
def Pc.free : Pc → Bool
  | .idle => true
  | .trying => true
  | .spinning _ _ => true
  | _ => false

section

variable (hi : Inv s)
include hi

theorem Inv.asleep (h : s.pc t = .asleep timed wait) :
    s.thread wait = t ∧ wait ≠ root ∧ wait ∈ s.live :=
  hi.record t wait (by rw [h]; rfl)

theorem Inv.mayOwn (h : s.owner = t) : (s.pc t).mayOwn := by
  rcases hi.owner with h' | ⟨u, hu, hown, -⟩
  · omega
  · obtain rfl : t = u := by omega
    exact hown

/-- A thread that is in no call and does not own the mutex has nothing to do with it. -/
theorem Inv.free_of_outside (h : (s.pc t).outside) (ho : s.owner ≠ t) : (s.pc t).free := by
  cases hpc : s.pc t with
  | idle => rfl
  | holds => exact absurd (hi.holder t hpc) ho
  | _ => simp [hpc, Pc.outside] at h

/-- A thread that has nothing to do with the mutex goes on to another such place. -/
theorem Inv.goto_free {pc : Pc} (h : (s.pc t).free) (h' : pc.free) : Inv (s.goto t pc) := by
  have hiff := moved_iff (g := (s.goto t pc).pc) h (by simpa [goto] using h') fun u hu => by
    simp [goto, hu]
  have hrec : ∀ u w, ((s.goto t pc).pc u).record = some w ↔ (s.pc u).record = some w := by
    refine fun u w => hiff u (·.record = some w) fun q hq => ?_
    cases q <;> first | rfl | cases hq
  have heq : ∀ u q, q.free = false → ((s.goto t pc).pc u = q ↔ s.pc u = q) := by
    rintro u q hq
    exact hiff u (· = q) fun _ e => e ▸ hq
  refine ⟨fun u hu => hi.holder u ((heq u _ rfl).1 hu),
    fun u w hu => hi.woken u w ((heq u _ rfl).1 hu), ?_,
    fun u w hu => hi.record u w ((hrec u w).1 hu), ?_, fun u v hu => ?_,
    fun u v x y hu hv => hi.resumer u v x y ((heq u _ rfl).1 hu) ((heq v _ rfl).1 hv)⟩
  · refine hi.owner.imp_right fun ⟨u, hu, hown, hnull⟩ => ⟨u, hu, ?_, fun w hw => ?_⟩
    · refine (hiff u Pc.mayOwn fun q hq => ?_).2 hown
      cases q <;> first | rfl | cases hq
    · exact hnull w ((hrec u w).1 hw)
  · refine hi.chain.congr fun w => ?_
    exact exists_congr fun u => exists_congr fun timed => and_congr_left fun _ =>
      (heq u _ rfl).symm
  · obtain ⟨ho, timed, w, hv⟩ := hi.resuming u v ((heq u _ rfl).1 hu)
    exact ⟨ho, timed, w, (heq v _ rfl).2 hv⟩

theorem Inv.nobody (h : s.owner < 0) (t : Nat) :
    s.pc t ≠ .holds ∧ (∀ w, s.pc t ≠ .woken w) ∧ ∀ u, s.pc t ≠ .resuming u := by
  refine ⟨fun e => ?_, fun w e => ?_, fun u e => ?_⟩
  · have := hi.holder t e
    omega
  · have := hi.woken t w e
    omega
  · have := (hi.resuming t u e).1
    omega

theorem Inv.take {n : Int} (h : (s.pc t).free)
    (ho : s.owner < 0) : Inv ({ s with owner := t, spinCount := n }.goto t .holds) := by
  have hnone := hi.nobody ho
  refine ⟨fun u hu => ?_, fun u w hu => ?_, .inr ⟨t, rfl, ?_, fun w hw => ?_⟩,
    fun u w hu => ?_, hi.chain.congr fun w => ?_, fun u v hu => ?_, fun u v x y hu hv => ?_⟩
  all_goals simp only [goto, update_apply] at *
  · grind
  · grind
  · simp [Pc.mayOwn]
  · simp [Pc.record] at hw
  · split at hu
    · cases hu
    · exact hi.record u w hu
  · grind [Pc.free]
  · grind
  · grind

/-- A record that no blocked thread has may be linked in or written to: the records of other
calls are not touched. -/
theorem Inv.record_off {w : Nat} (h : (s.pc t).record = some w)
    (ho : s.owner = t) : ¬ ∃ u timed, s.pc u = .asleep timed w ∧ s.owner ≠ u := by
  rintro ⟨u, timed, hu, hne⟩
  have h1 := (hi.asleep hu).1
  have h2 := (hi.record t w h).1
  exact hne (by omega)

theorem Inv.sleep (h : (s.pc t).free) (hroot : wait ≠ root) (hlive : wait ∉ s.live)
    (hs : sleepOnChain c s t timed wait = some s') : Inv s' := by
  unfold sleepOnChain at hs
  split at hs
  · cases hs
  have hoff : ∀ u timed, s.pc u ≠ .asleep timed wait := fun u timed hu =>
    hlive (hi.asleep hu).2.2
  have hot : s.owner ≠ t := fun ho => by
    have := hi.mayOwn ho
    cases hpc : s.pc t <;> simp_all [Pc.free, Pc.mayOwn]
  obtain ⟨k', hk', hw, hkept⟩ := hi.chain.add hroot fun ⟨u, timed, hu, _⟩ => hoff u timed hu
  rw [hk'] at hs
  obtain rfl := some.inj hs
  refine ⟨fun u hu => ?_, fun u w hu => ?_, ?_, fun u w hu => ?_, hw.congr fun w => ?_,
    fun u v hu => ?_, fun u v x y hu hv => ?_⟩
  all_goals simp only [goto, update_apply] at *
  · grind [Inv]
  · grind [Inv]
  · refine hi.owner.imp_right fun ⟨u, hu, hown, hnull⟩ => ?_
    have hut : u ≠ t := by rintro rfl; exact hot hu
    refine ⟨u, hu, by rwa [if_neg hut], fun w hwu => ?_⟩
    rw [if_neg hut] at hwu
    obtain ⟨-, hwr, hwl⟩ := hi.record u w hwu
    have hww : w ≠ wait := fun e => hlive (e ▸ hwl)
    have := hkept w ⟨hwr, hi.record_off hwu hu, hww⟩
    rw [this.1, this.2]
    exact hnull w hwu
  · split at hu
    · cases hu
      subst u
      simp [hroot]
    · obtain ⟨h1, h2, h3⟩ := hi.record u w hu
      have hww : w ≠ wait := fun e => hlive (e ▸ h3)
      simp [hww, h1, h2, h3]
  · grind [Pc.free]
  · grind [Inv, Pc.free]
  · grind [Inv]

theorem Inv.lockSection {spin : Nat} (h : (s.pc t).free) (hroot : wait ≠ root)
    (hlive : wait ∉ s.live) (hs : lockSection c s t timed spin wait = some s') : Inv s' := by
  unfold Mutex.lockSection at hs
  split at hs
  · cases hs
    exact hi.goto_free h rfl
  · split at hs
    · cases hs
      exact hi.take h ‹_›
    · exact hi.sleep h hroot hlive hs

theorem Inv.alone (h : s.pc t = .holds) (u : Nat) :
    (s.pc u = .holds → u = t) ∧ (∀ w, s.pc u ≠ .woken w) ∧ ∀ v, s.pc u ≠ .resuming v := by
  have ho := hi.holder t h
  refine ⟨fun hu => ?_, fun w hu => ?_, fun v hu => ?_⟩
  · have := hi.holder u hu
    omega
  · have := hi.woken u w hu
    obtain rfl : u = t := by omega
    simp [h] at hu
  · obtain ⟨hv, timed, w, hw⟩ := hi.resuming u v hu
    obtain rfl : v = t := by omega
    simp [h] at hw

theorem Inv.release (h : s.pc t = .holds)
    (hnone : ∀ w, ¬ ∃ u timed, s.pc u = .asleep timed w ∧ s.owner ≠ u) :
    Inv ({ s with owner := -1 }.goto t .idle) := by
  have halone := hi.alone h
  have ho := hi.holder t h
  refine ⟨fun u hu => ?_, fun u w hu => ?_, .inl rfl, fun u w hu => ?_,
    hi.chain.congr fun w => ?_, fun u v hu => ?_, fun u v x y hu hv => ?_⟩
  all_goals simp only [goto, update_apply] at *
  · grind
  · grind
  · split at hu
    · cases hu
    · exact hi.record u w hu
  · grind
  · grind
  · grind

/-- The mutex is passed to the thread of the first record. -/
theorem Inv.handOff {f u : Nat} {k' : ListLinks Nat}
    (h : s.pc t = .holds) (hu : s.pc u = .asleep timed f)
    (hw : Waits k' root fun w => (∃ u timed, s.pc u = .asleep timed w ∧ s.owner ≠ u) ∧ w ≠ f)
    (hnull : k'.next f = none ∧ k'.prev f = none) :
    Inv ({ s with owner := s.thread f, links := k' }.goto t (.resuming (s.thread f))) := by
  have halone := hi.alone h
  have ho := hi.holder t h
  have huf : s.thread f = u := (hi.asleep hu).1
  have hut : u ≠ t := by rintro rfl; simp [h] at hu
  have hrec : ∀ v timed, s.pc v = .asleep timed f → v = u := fun v timed hv => by
    have := (hi.asleep hv).1
    omega
  refine ⟨fun v hv => ?_, fun v w hv => ?_, .inr ⟨u, ?_, ?_, fun w hv => ?_⟩, fun v w hv => ?_,
    hw.congr fun w => ?_, fun v x hv => ?_, fun v x y z hv hx => ?_⟩
  all_goals simp only [goto, update_apply, huf] at *
  · grind
  · grind
  · rw [if_neg hut, hu]
    trivial
  · rw [if_neg hut, hu] at hv
    cases hv
    exact hnull
  · split at hv
    · cases hv
    · exact hi.record v w hv
  · grind
  · grind
  · grind

theorem Inv.unlock (h : (s.pc t).outside) (hs : mutexUnlock s t = some s') : Inv s' := by
  unfold mutexUnlock at hs
  split at hs
  · cases hs
  rename_i ho
  have hh : s.pc t = .holds := by
    have := hi.mayOwn (not_not.1 ho)
    cases hpc : s.pc t <;> simp_all [Pc.outside, Pc.mayOwn]
  obtain ⟨f, hf, ⟨rfl, hnone⟩ | ⟨hroot, ⟨u, timed, hu, _⟩, n, k', hdel, hw, hn, hp, -⟩⟩ :=
    hi.chain.first
  · simp only [hf, bind_eq_bind, bind_some, if_pos] at hs
    cases hs
    exact hi.release hh hnone
  · simp only [hf, bind_eq_bind, bind_some, if_neg hroot, hdel] at hs
    cases hs
    exact hi.handOff hh hu hw ⟨hn, hp⟩

theorem Inv.resume {u : Nat} (ht : s.pc t = .resuming u) (hu : s.pc u = .asleep timed wait) :
    Inv ((s.goto u (.woken wait)).goto t .idle) := by
  obtain ⟨ho, -⟩ := hi.resuming t u ht
  have hut : u ≠ t := by rintro rfl; simp [hu] at ht
  have hone := hi.resumer t
  have hnull := hi.owner.resolve_left (by omega)
  refine ⟨fun v hv => ?_, fun v w hv => ?_, .inr ⟨u, ho, ?_, fun w hv => ?_⟩, fun v w hv => ?_,
    hi.chain.congr fun w => ?_, fun v x hv => ?_, fun v x y z hv hx => ?_⟩
  all_goals simp only [goto, update_apply] at *
  · grind [Inv]
  · grind [Inv]
  · simp [hut, Pc.mayOwn]
  · obtain ⟨v, hv', -, hnull⟩ := hnull
    obtain rfl : u = v := by omega
    simp only [if_neg hut, if_true] at hv
    exact hnull w (by rw [hu]; exact hv)
  · split at hv
    · cases hv
    · split at hv
      · subst v
        exact hi.record u w (by rw [hu]; exact hv)
      · exact hi.record v w hv
  · grind
  · grind
  · grind

theorem Inv.lockReturn (ht : s.pc t = .woken wait)
    (hs : lockReturn s t wait = some s') : Inv s' := by
  unfold Mutex.lockReturn at hs
  split at hs
  case isFalse => cases hs
  cases hs
  have ho := hi.woken t wait ht
  refine ⟨fun u hu => ?_, fun u w hu => ?_, .inr ⟨t, ho, ?_, fun w hu => ?_⟩, fun u w hu => ?_,
    hi.chain.congr fun w => ?_, fun u v hu => ?_, fun u v x y hu hv => ?_⟩
  all_goals simp only [goto, update_apply] at *
  · grind [Inv]
  · grind [Inv]
  · simp [Pc.mayOwn]
  · simp [Pc.record] at hu
  · split at hu
    · cases hu
    · obtain ⟨h1, h2, h3⟩ := hi.record u w hu
      refine ⟨h1, h2, (mem_erase_of_ne ?_).2 h3⟩
      rintro rfl
      omega
  · grind
  · grind [Inv]
  · grind [Inv]

theorem Inv.scribble {a thread : Nat} {next prev : Option Nat}
    (hroot : a ≠ root) (hlive : a ∉ s.live) :
    Inv { s with
      links := (s.links.setNext a next).setPrev a prev
      thread := Function.update s.thread a thread } := by
  have hrec : ∀ t w, (s.pc t).record = some w → w ≠ a := fun t w h e =>
    hlive (e ▸ (hi.record t w h).2.2)
  refine ⟨hi.holder, hi.woken, ?_, fun t w h => ?_, hi.chain.frame ?_, hi.resuming, hi.resumer⟩
  · refine hi.owner.imp_right fun ⟨t, ht, hown, hnull⟩ => ⟨t, ht, hown, fun w hw => ?_⟩
    simpa [hrec t w hw] using hnull w hw
  · simpa [hrec t w h] using hi.record t w h
  · rintro c (rfl | ⟨t, timed, ht, -⟩)
    · simp [hroot.symm]
    · simp [hrec t c (by rw [ht]; rfl)]

theorem Inv.step {a : Act} (hok : NoExpiry s a) (hs : step c s a = some s') : Inv s' := by
  cases a with
  | tryLock t =>
    obtain ⟨⟨hout, hne⟩, ⟨⟩⟩ := ite_none_right_eq_some.1 hs
    exact hi.goto_free (hi.free_of_outside hout hne) rfl
  | lock t timed =>
    obtain ⟨⟨hout, hne⟩, ⟨⟩⟩ := ite_none_right_eq_some.1 hs
    exact hi.goto_free (hi.free_of_outside hout hne) rfl
  | trySection t =>
    obtain ⟨ht, ⟨⟩⟩ := ite_none_right_eq_some.1 hs
    have hfree : (s.pc t).free := by rw [ht]; rfl
    unfold mutexTryLock
    split
    · exact hi.take hfree ‹_›
    · exact hi.goto_free hfree rfl
  | spin t =>
    cases ht : s.pc t <;> simp only [Mutex.step, ht, reduceCtorEq] at hs
    obtain ⟨-, ⟨⟩⟩ := ite_none_right_eq_some.1 hs
    exact hi.goto_free (by rw [ht]; rfl) rfl
  | lockSection t wait =>
    cases ht : s.pc t <;> simp only [Mutex.step, ht, reduceCtorEq] at hs
    obtain ⟨⟨hroot, hlive⟩, hs⟩ := ite_none_right_eq_some.1 hs
    exact hi.lockSection (by rw [ht]; rfl) hroot hlive hs
  | giveUp t =>
    simp only [Mutex.step] at hs
    split at hs
    · rename_i spin ht
      cases hs
      exact hi.goto_free (by rw [ht]; rfl) rfl
    · cases hs
  | expire t => exact hok.elim
  | unlock t =>
    obtain ⟨h, hs⟩ := ite_none_right_eq_some.1 hs
    exact hi.unlock h hs
  | resume t =>
    simp only [Mutex.step] at hs
    split at hs
    · rename_i u ht
      split at hs
      · rename_i timed wait hu
        cases hs
        exact hi.resume ht hu
      · cases hs
    · cases hs
  | lockReturn t =>
    cases ht : s.pc t <;> simp only [Mutex.step, ht, reduceCtorEq] at hs
    exact hi.lockReturn ht hs
  | scribble a next prev thread =>
    obtain ⟨⟨hroot, hlive⟩, ⟨⟩⟩ := ite_none_right_eq_some.1 hs
    exact hi.scribble hroot hlive

/-! ## Results -/

theorem Inv.good : Good s := by
  refine ⟨fun t u ht hu => ?_, hi.holder, hi.owner.imp_right fun ⟨t, ht, hown, _⟩ => ⟨t, ht, hown⟩,
    ?_⟩
  · have h1 := hi.holder t ht
    have h2 := hi.holder u hu
    omega
  · obtain ⟨l, hl, hmem⟩ := hi.chain
    have hthread : ∀ w ∈ l, ∃ timed, s.pc (s.thread w) = .asleep timed w := by
      intro w hw
      obtain ⟨t, timed, ht, -⟩ := (hmem w).1 hw
      have := (hi.asleep ht).1
      exact ⟨timed, by rw [this]; exact ht⟩
    refine ⟨l, hl, ?_, fun t => ?_⟩
    · refine (nodup_cons.1 hl.nodup).2.map_on fun v hv w hw he => ?_
      obtain ⟨_, h1⟩ := hthread v hv
      obtain ⟨_, h2⟩ := hthread w hw
      rw [he, h2] at h1
      injection h1 with _ h
      exact h.symm
    · rw [List.mem_map]
      constructor
      · rintro ⟨w, hw, rfl⟩
        obtain ⟨t, timed, ht, hne⟩ := (hmem w).1 hw
        have := (hi.asleep ht).1
        rw [this]
        exact ⟨⟨timed, w, ht⟩, hne⟩
      · rintro ⟨⟨timed, w, ht⟩, hne⟩
        exact ⟨w, (hmem w).2 ⟨t, timed, ht, hne⟩, (hi.asleep ht).1⟩

/-- After an expiry the thread is still on the chain, or owns the mutex although its call has
returned false. -/
theorem Inv.not_good_of_expire (hs : Mutex.step c s (.expire t) = some s') : ¬ Good s' := by
  intro hg
  simp only [Mutex.step] at hs
  split at hs
  case h_2 => cases hs
  rename_i wait ht
  cases hs
  by_cases ho : s.owner = t
  · rcases hg.owner with h | ⟨u, hu, hown⟩
    · simp only [goto] at h
      omega
    · simp only [goto] at hu
      obtain rfl : u = t := by omega
      simp [goto, Pc.mayOwn] at hown
  · obtain ⟨l, hl, hmem⟩ := hi.chain
    obtain ⟨l', hl', -, hmem'⟩ := hg.chain
    obtain rfl := hl.unique hl'
    have hblocked := (hmem' t).1 (mem_map.2 ⟨wait, (hmem wait).2 ⟨t, true, ht, ho⟩,
      (hi.asleep ht).1⟩)
    obtain ⟨⟨timed, w, hpc⟩, -⟩ := hblocked
    simp [goto] at hpc

end

theorem mutex_right_iff (c : Cfg) (s : St) (h : Init c s) (acts : List Act) :
    (lts c).Always Good s acts ↔ (lts c).Meets NoExpiry s acts := by
  refine LTS.always_iff (fun _ hi => hi.good) (fun _ _ _ hi hok hs => hi.step hok hs)
    (fun s a s' hi hno hs => ?_) (Inv.of_init h) acts
  cases a with
  | expire t => exact hi.not_good_of_expire hs
  | _ => exact absurd trivial hno

/-- Two processors; threads 0 and 1 are idle threads. -/
def sampleCfg : Cfg := ⟨false, 2⟩

def sampleSt : St :=
  { owner := -1
    spinCount := 0
    links := ⟨fun a => if a = root then some root else none,
      fun a => if a = root then some root else none⟩
    thread := fun _ => 0
    live := []
    pc := fun _ => .idle }

theorem sampleSt_init : Init sampleCfg sampleSt := ⟨rfl, rfl, rfl, rfl, rfl, fun _ => rfl⟩

/-- Thread 2 takes the mutex, thread 3 waits for it and gets it from the unlock. -/
theorem mutex_right_sample : (lts sampleCfg).Always Good sampleSt
    [.lock 2 false, .lockSection 2 64, .lock 3 true, .lockSection 3 96, .unlock 2, .resume 2,
      .lockReturn 3] :=
  (mutex_right_iff sampleCfg sampleSt sampleSt_init _).2 (by simp [LTS.Meets, NoExpiry])

/-- Thread 3 gives up; the unlock of thread 2 makes it the owner. -/
theorem expired_thread_owns : ∃ s, (lts sampleCfg).Reachable s ∧ s.owner = 3 ∧ s.pc 3 = .idle ∧
    ¬ Good s := by
  have hrun : (lts sampleCfg).Run sampleSt
      [.lock 2 false, .lockSection 2 64, .lock 3 true, .lockSection 3 96, .expire 3, .unlock 2] _ :=
    .cons rfl (.cons rfl (.cons rfl (.cons rfl (.cons rfl (.cons rfl (.nil _))))))
  refine ⟨_, ⟨sampleSt, _, sampleSt_init, hrun⟩, rfl, rfl, fun hg => ?_⟩
  rcases hg.owner with h | ⟨t, ht, hown⟩
  · cases h
  · cases Int.ofNat.inj ht
    exact hown

end Dgos.L5.Mutex
