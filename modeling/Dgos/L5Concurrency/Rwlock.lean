import Dgos.Core.Chain
import Dgos.Core.Lts
import Dgos.L5Concurrency.WaitChain

/-!
# The reader-writer lock (kernel/lib/threadsync.cc)

`reader_count` is the number of readers, or the negated thread id of the writer, or 0 for a free
lock. Writers and readers that have to wait are on two chains. An unlock that leaves the lock
free passes it to the first writer; a writer's unlock with no writer waiting wakes every reader.

One step is one section of the spinlock, one unlocked test, or one thing that happens to a
sleeping thread, as for the mutex. `shared` and `excl` say who holds the lock: one entry for
every hold, made when the lock is taken or passed on, and taken away by the unlock or by a call
that returns false. Threads unlock what they hold and no more; they may take the shared lock
again while they hold it. Thread ids and the count are of type `int`. A failed `assert` stops.

Results:
* `rwlock_right_iff`: along a run writers exclude all others, the count says who holds the lock
  and every queued thread is blocked, if and only if no timer of a sleeping thread expires,
  thread 0 does not take the lock exclusively and no reader is counted beyond `INT_MAX`.
* `writer_zero_shares`: thread 0 and another thread hold the lock exclusively at once.
* `upgrade_right_iff`: when the others have unlocked, a reader that upgrades has the lock if and
  only if it was alone when it called, and is not thread 0.
-/
namespace Dgos.L5.Rwlock

open WaitChain List Option Function Bool

/-! ## State -/

inductive Mode where
  | ex | sh
  deriving DecidableEq, Repr

/-- Where a thread is. -/
inductive Pc where
  | idle
  /-- in one of the try functions, before its section -/
  | trying (mode : Mode)
  | spinning (mode : Mode) (timed : Bool) (spin : Nat)
  /-- in `thread_sleep_release`, its record on the chain -/
  | asleep (mode : Mode) (timed : Bool) (wait : Nat)
  /-- still asleep, but an unlock took the record off and made the thread the writer -/
  | handed (timed : Bool) (wait : Nat)
  /-- `thread_sleep_release` is about to return 1 -/
  | woken (mode : Mode) (wait : Nat)
  /-- in an unlock after its section, before `thread_resume` -/
  | resuming (waked : Nat)
  deriving DecidableEq, Repr

/-- `rwlock_t`, the memory of links and records, the holds and the threads. -/
structure St where
  readerCount : Int
  spinCount : Int
  links : ListLinks Nat
  /-- the field `thread` of the record at an address -/
  thread : Nat → Nat
  live : List Nat
  shared : List Nat
  excl : List Nat
  pc : Nat → Pc

/-- `smp` is a `spincount_mask` of -1; the first `cpuCount` threads are idle threads. -/
structure Cfg where
  smp : Bool
  cpuCount : Nat
  cpu_pos : 0 < cpuCount

def intMax : Int := 2 ^ 31 - 1

/-- `++rwlock->reader_count` -/
def increment (n : Int) : Int := if n = intMax then -intMax - 1 else n + 1

/-- The addresses of `rwlock->ex_link` and `rwlock->sh_link`. -/
def root : Mode → Nat
  | .ex => 0
  | .sh => 1

def spincountMin : Int := 4

def spincountMax : Int := 4096

/-- The lock as `rwlock_init` leaves it, and nobody in a call.
mirrors threadsync.cc:251-261 -/
structure Init (c : Cfg) (s : St) : Prop where
  readerCount : s.readerCount = 0
  spinCount : s.spinCount =
    if c.smp then spincountMin + (spincountMax - spincountMin) / 2 else 0
  next : ∀ m, s.links.next (root m) = some (root m)
  prev : ∀ m, s.links.prev (root m) = some (root m)
  live : s.live = []
  shared : s.shared = []
  excl : s.excl = []
  pc : ∀ t, s.pc t = .idle

/-! ## The sections of the spinlock -/

def St.goto (s : St) (t : Nat) (pc : Pc) : St := { s with pc := Function.update s.pc t pc }

/-- `rwlock->ex_link.next == &rwlock->ex_link`, and the same for readers -/
def St.empty (s : St) (m : Mode) : Bool := s.links.next (root m) = some (root m)

/-- The test under which a section takes the lock.
mirrors threadsync.cc:281-282, 311-312, 424-425 and 451-452 -/
def St.grants (s : St) : Mode → Bool
  | .ex => s.readerCount = 0 ∧ s.empty .ex
  | .sh => 0 ≤ s.readerCount ∧ s.empty .ex

/-- mirrors threadsync.cc:284, 314, 426 and 454 -/
def St.acquire (s : St) (t : Nat) : Mode → St
  | .ex => { s with readerCount := -t, excl := t :: s.excl }.goto t .idle
  | .sh =>
    { s with readerCount := increment s.readerCount, shared := t :: s.shared }.goto t .idle

/-- mirrors threadsync.cc:275-291 and 420-432 -/
def trySection (s : St) (t : Nat) (m : Mode) : St :=
  if s.grants m then s.acquire t m else s.goto t .idle

/-- The record goes on the chain and the thread to sleep.
mirrors threadsync.cc:318-328, 458-470 and
kernel/arch/x86_64/cpu/thread_impl.cc:1477-1499 -/
def sleepOnChain (c : Cfg) (s : St) (t : Nat) (m : Mode) (timed : Bool) (wait : Nat) :
    Option St :=
  if t < c.cpuCount then none
  else do
    let links ← threadWaitAdd s.links (root m) wait
    return { s with
      spinCount := if c.smp ∧ spincountMin < s.spinCount then s.spinCount - 1 else s.spinCount
      links := links
      thread := Function.update s.thread wait t
      live := wait :: s.live }.goto t (.asleep m timed wait)

/-- The section of `rwlock_ex_lock` and `rwlock_sh_lock`; `wait` is where the record is on the
stack.
mirrors threadsync.cc:308-341 and 448-483 -/
def lockSection (c : Cfg) (s : St) (t : Nat) (m : Mode) (timed : Bool) (spin wait : Nat) :
    Option St :=
  if s.grants m then some (s.acquire t m)
  else if s.spinCount ≤ spin then sleepOnChain c s t m timed wait
  else some (s.goto t (.spinning m timed (spin + 1)))

/-- The lock is passed to the first writer.
mirrors threadsync.cc:390-395 and 497-502 -/
def passToWriter (s : St) (t : Nat) : Option St := do
  let waiter ← s.links.next (root .ex)
  let (_, links) ← threadWaitDel s.links waiter
  let waked := s.thread waiter
  let s := { s with readerCount := -waked, links := links, excl := waked :: s.excl }
  let s := match s.pc waked with
    | .asleep _ timed wait => s.goto waked (.handed timed wait)
    | _ => s
  return s.goto t (.resuming waked)

/-- One round of the loop that wakes the readers; `thread_resume` goes on only when the thread
is asleep.
mirrors threadsync.cc:401-405 -/
def wakeReader (s : St) : Option St := do
  let waiter ← s.links.next (root .sh)
  let (_, links) ← threadWaitDel s.links waiter
  let waked := s.thread waiter
  let s := { s with
    links := links, readerCount := increment s.readerCount, shared := waked :: s.shared }
  match s.pc waked with
  | .asleep m _ wait => some (s.goto waked (.woken m wait))
  | _ => none

/-- mirrors threadsync.cc:400-406 -/
def wakeReaders : Nat → St → Option St
  | 0, _ => none
  | fuel + 1, s => do
    let s ← wakeReader s
    if s.empty .sh then return s else wakeReaders fuel s

/-- The section of `rwlock_ex_unlock`, with its assertion.
mirrors threadsync.cc:385-412 -/
def exUnlock (s : St) (t fuel : Nat) : Option St :=
  if s.readerCount ≠ -t then none
  else
    let s := { s with excl := s.excl.erase t }
    if ¬ s.empty .ex then passToWriter s t
    else if ¬ s.empty .sh then wakeReaders fuel ({ s with readerCount := 0 }.goto t .idle)
    else some ({ s with readerCount := 0 }.goto t .idle)

/-- The section of `rwlock_sh_unlock`, with its assertion.
mirrors threadsync.cc:490-507 -/
def shUnlock (s : St) (t : Nat) : Option St :=
  if ¬ 0 < s.readerCount then none
  else
    let s := { s with readerCount := s.readerCount - 1, shared := s.shared.erase t }
    if s.readerCount = 0 ∧ ¬ s.empty .ex then passToWriter s t else some (s.goto t .idle)

/-- What a thread does when it was resumed, with the assertions.
mirrors threadsync.cc:330-337 and 472-479 -/
def lockReturn (s : St) (t : Nat) (m : Mode) (wait : Nat) : Option St :=
  let counted : Bool := match m with
    | .ex => s.thread wait = t ∧ s.readerCount = -s.thread wait
    | .sh => 0 < s.readerCount
  if s.links.next wait = none ∧ s.links.prev wait = none ∧ counted then
    some ({ s with live := s.live.erase wait }.goto t .idle)
  else none

/-! ## Steps -/

inductive Act where
  /-- the unlocked test of the try functions -/
  | tryLock (t : Nat) (m : Mode)
  | trySection (t : Nat)
  | lock (t : Nat) (m : Mode) (timed : Bool)
  /-- one unlocked test that finds a writer and no writer waiting -/
  | spin (t : Nat)
  | lockSection (t wait : Nat)
  /-- the timer of a sleeping thread -/
  | expire (t : Nat)
  /-- `fuel` bounds the loop that wakes the readers -/
  | exUnlock (t fuel : Nat)
  | shUnlock (t : Nat)
  /-- `thread_resume` of the unlocking thread finds the thread asleep -/
  | resume (t : Nat)
  | lockReturn (t : Nat)
  /-- other code writes to memory that is no live record -/
  | scribble (a : Nat) (next prev : Option Nat) (thread : Nat)

def step (c : Cfg) (s : St) : Act → Option St
  | .tryLock t m =>
    if s.pc t = .idle then
      if s.readerCount < 0 then some s else some (s.goto t (.trying m))
    else none
  | .trySection t =>
    match s.pc t with
    | .trying m => some (trySection s t m)
    | _ => none
  | .lock t m timed => if s.pc t = .idle then some (s.goto t (.spinning m timed 0)) else none
  | .spin t =>
    match s.pc t with
    | .spinning m timed spin =>
      if spin < s.spinCount ∧ s.readerCount < 0 ∧ s.empty .ex then
        some (s.goto t (.spinning m timed (spin + 1)))
      else none
    | _ => none
  | .lockSection t wait =>
    match s.pc t with
    | .spinning m timed spin =>
      if t ≤ intMax ∧ wait ≠ root .ex ∧ wait ≠ root .sh ∧ wait ∉ s.live then
        lockSection c s t m timed spin wait
      else none
    | _ => none
  | .expire t =>
    match s.pc t with
    | .asleep _ true wait => some ({ s with live := s.live.erase wait }.goto t .idle)
    | .handed true wait =>
      some ({ s with live := s.live.erase wait, excl := s.excl.erase t }.goto t .idle)
    | _ => none
  | .exUnlock t fuel => if s.pc t = .idle ∧ t ∈ s.excl then exUnlock s t fuel else none
  | .shUnlock t => if s.pc t = .idle ∧ t ∈ s.shared then shUnlock s t else none
  | .resume t =>
    match s.pc t with
    | .resuming waked =>
      match s.pc waked with
      | .asleep m _ wait => some ((s.goto waked (.woken m wait)).goto t .idle)
      | .handed _ wait => some ((s.goto waked (.woken .ex wait)).goto t .idle)
      | _ => none
    | _ => none
  | .lockReturn t =>
    match s.pc t with
    | .woken m wait => lockReturn s t m wait
    | _ => none
  | .scribble a next prev thread =>
    if a ≠ root .ex ∧ a ≠ root .sh ∧ a ∉ s.live then
      some { s with
        links := (s.links.setNext a next).setPrev a prev
        thread := Function.update s.thread a thread }
    else none

def lts (c : Cfg) : LTS St Act where
  init := Init c
  step s a s' := step c s a = some s'

/-! ## What the lock is for -/

/-- The count says who holds the lock. -/
structure Counted (s : St) : Prop where
  free : s.readerCount = 0 → s.shared = [] ∧ s.excl = []
  readers : 0 < s.readerCount → s.readerCount = s.shared.length ∧ s.excl = []
  writer : s.readerCount < 0 → s.shared = [] ∧ ∃ t : Nat, s.excl = [t] ∧ s.readerCount = -t

/-- The thread holds the lock in this mode. -/
def Holds (s : St) (t : Nat) : Mode → Prop
  | .ex => t ∈ s.excl
  | .sh => t ∈ s.shared

structure Good (s : St) : Prop where
  exclusive : ∀ t ∈ s.excl, s.excl = [t] ∧ s.shared = []
  counted : Counted s
  queued : ∀ m, ∃ l, Ring s.links (root m) l ∧
    ∀ w ∈ l, ∃ timed, s.pc (s.thread w) = .asleep m timed w
  handed : ∀ t timed w, s.pc t = .handed timed w → Holds s t .ex
  woken : ∀ t m w, s.pc t = .woken m w → Holds s t m

/-- The count can say that the thread holds the lock. -/
def St.fits (s : St) (t : Nat) : Mode → Prop
  | .ex => t ≠ 0
  | .sh => s.readerCount ≠ intMax

/-- The step is not the timer of a sleeping thread, and a lock that it takes fits the count. -/
def Sound (s : St) : Act → Prop
  | .expire _ => False
  | .trySection t =>
    match s.pc t with
    | .trying m => s.grants m → s.fits t m
    | _ => True
  | .lockSection t _ =>
    match s.pc t with
    | .spinning m _ _ => s.grants m → s.fits t m
    | _ => True
  | _ => True

/-! ## Invariant -/

/-- The record of the call a thread is in. -/
def Pc.record : Pc → Option Nat
  | .asleep _ _ w => some w
  | .handed _ w => some w
  | .woken _ w => some w
  | _ => none

structure Inv (s : St) : Prop where
  counted : Counted s
  bound : s.readerCount ≤ intMax
  record : ∀ t w, (s.pc t).record = some w →
    s.thread w = t ∧ (∀ m, w ≠ root m) ∧ w ∈ s.live ∧ 0 < t ∧ t ≤ intMax
  chain : ∀ m, Waits s.links (root m) fun w => ∃ t timed, s.pc t = .asleep m timed w
  handed : ∀ t timed w, s.pc t = .handed timed w → t ∈ s.excl
  woken : ∀ t m w, s.pc t = .woken m w → Holds s t m
  resuming : ∀ t u, s.pc t = .resuming u → ∃ timed w, s.pc u = .handed timed w
  resumer : ∀ t u v w, s.pc t = .resuming v → s.pc u = .resuming w → t = u

variable {c : Cfg} {s s' : St} {t wait u : Nat} {m m' : Mode} {timed : Bool}

/-- A lock without a writer that counts its readers. -/
theorem Counted.of_readers (h : s.readerCount = s.shared.length) (he : s.excl = []) : Counted s :=
  ⟨fun hz => ⟨length_eq_zero_iff.1 (by omega), he⟩, fun _ => ⟨h, he⟩, fun hneg => by omega⟩

theorem Inv.of_init (h : Init c s) : Inv s := by
  have hpc := h.pc
  exact ⟨.of_readers (by simp [h.readerCount, h.shared]) h.excl, by simp [h.readerCount, intMax],
    by simp [hpc, Pc.record], fun m => ⟨[], ⟨by simp, h.next m, h.prev m⟩, by simp [hpc]⟩,
    by simp [hpc], by simp [hpc], by simp [hpc], by simp [hpc]⟩

/-- The thread neither sleeps nor resumes another. -/
def Pc.free : Pc → Bool
  | .idle => true
  | .trying _ => true
  | .spinning _ _ _ => true
  | _ => false

/-- What the holds and the count become does not matter to the records and the chains. -/
theorem Inv.rehold (hi : Inv s) (h : (s.pc t).free) (hlinks : s'.links = s.links)
    (hthread : s'.thread = s.thread) (hlive : s'.live = s.live) (hfree : (s'.pc t).free)
    (hpc : ∀ u ≠ t, s'.pc u = s.pc u) (hc : Counted s') (hbound : s'.readerCount ≤ intMax)
    (hhanded : ∀ u timed w, s.pc u = .handed timed w → u ∈ s'.excl)
    (hwoken : ∀ u m w, s.pc u = .woken m w → Holds s' u m) : Inv s' := by
  have hiff := moved_iff h hfree hpc
  have heq : ∀ u q, q.free = false → (s'.pc u = q ↔ s.pc u = q) := fun u q hq =>
    hiff u (· = q) fun _ e => e ▸ hq
  refine ⟨hc, hbound, fun u w hu => ?_, fun m => ?_, fun u timed w hu => hhanded u timed w
    ((heq u _ rfl).1 hu), fun u m w hu => hwoken u m w ((heq u _ rfl).1 hu), fun u v hu => ?_,
    fun u v x y hu hv => hi.resumer u v x y ((heq u _ rfl).1 hu) ((heq v _ rfl).1 hv)⟩
  · rw [hthread, hlive]
    refine hi.record u w ((hiff u (·.record = some w) fun q hq => ?_).1 hu)
    cases q <;> first | rfl | cases hq
  · rw [hlinks]
    exact (hi.chain m).congr fun w => exists_congr fun u => exists_congr fun timed =>
      (heq u _ rfl).symm
  · obtain ⟨timed, w, hv⟩ := hi.resuming u v ((heq u _ rfl).1 hu)
    exact ⟨timed, w, (heq v _ rfl).2 hv⟩

theorem Inv.goto_free (hi : Inv s) {pc : Pc} (h : (s.pc t).free)
    (h' : pc.free) : Inv (s.goto t pc) := by
  refine hi.rehold h rfl rfl rfl ?_ (fun u hu => ?_) { hi.counted with } hi.bound hi.handed hi.woken
  · simpa [St.goto] using h'
  · simp [St.goto, hu]

theorem increment_eq {n : Int} (h : n ≠ intMax) : increment n = n + 1 := if_neg h

theorem Inv.acquire (hi : Inv s) (h : (s.pc t).free)
    (hg : s.grants m) (hfits : s.fits t m) : Inv (s.acquire t m) := by
  obtain ⟨hfree, hreaders, hwriter⟩ := hi.counted
  cases m with
  | ex =>
    simp only [St.grants, decide_and, and_eq_true, decide_eq_true_eq] at hg
    obtain ⟨hs, he⟩ := hfree hg.1
    have ht : t ≠ 0 := hfits
    refine hi.rehold h rfl rfl rfl ?_ (fun u hu => ?_) ⟨?_, ?_, ?_⟩ ?_ (fun u timed w hu => ?_)
      fun u m w hu => ?_
    · simp [St.acquire, St.goto, Pc.free]
    · simp [St.acquire, St.goto, hu]
    · simp [St.acquire, St.goto, ht]
    · simp only [St.acquire, St.goto]
      omega
    · exact fun _ => ⟨hs, t, by simp [St.acquire, St.goto, he], rfl⟩
    · simp only [St.acquire, St.goto, intMax]
      omega
    · exact absurd (hi.handed u timed w hu) (by simp [he])
    · have := hi.woken u m w hu
      cases m <;> simp [Holds, hs, he] at this
  | sh =>
    simp only [St.grants, decide_and, and_eq_true, decide_eq_true_eq] at hg
    have hcount : s.readerCount = s.shared.length ∧ s.excl = [] := by
      rcases Int.lt_or_eq_of_le hg.1 with hpos | hz
      · exact hreaders hpos
      · obtain ⟨hs, he⟩ := hfree hz.symm
        exact ⟨by simp [hs, ← hz], he⟩
    have hinc := increment_eq (show s.readerCount ≠ intMax from hfits)
    have hlt : s.readerCount < intMax := Int.lt_iff_le_and_ne.2 ⟨hi.bound, hfits⟩
    refine hi.rehold h rfl rfl rfl ?_ (fun u hu => ?_) (.of_readers ?_ hcount.2) ?_ hi.handed
      fun u m w hu => ?_
    · simp [St.acquire, St.goto, Pc.free]
    · simp [St.acquire, St.goto, hu]
    · simpa [St.acquire, St.goto, hinc] using hcount.1
    · simp only [St.acquire, St.goto, hinc]
      omega
    · have := hi.woken u m w hu
      cases m with
      | ex => exact this
      | sh => exact mem_cons_of_mem t this

theorem Inv.asleep (hi : Inv s) (h : s.pc t = .asleep m timed wait) :
    s.thread wait = t ∧ (∀ m, wait ≠ root m) ∧ wait ∈ s.live ∧ 0 < t ∧ t ≤ intMax :=
  hi.record t wait (by rw [h]; rfl)

theorem Inv.asleep_inj (hi : Inv s) {timed' : Bool}
    (hu : s.pc u = .asleep m' timed' wait) (ht : s.pc t = .asleep m timed wait) : t = u :=
  (hi.asleep ht).1.symm.trans (hi.asleep hu).1

theorem Mode.root_inj (h : root m = root m') : m = m' := by
  cases m <;> cases m' <;> first | rfl | cases h

/-- The links of a chain are not touched by work on the other chain. -/
theorem Inv.other_chain (hi : Inv s) (hm : m' ≠ m) {k' : ListLinks Nat} {C : Nat → Prop}
    (hk : Kept s.links k' fun c => c ≠ root m ∧ (¬ ∃ t timed, s.pc t = .asleep m timed c) ∧ ¬ C c)
    (hoff : ∀ t timed w, s.pc t = .asleep m' timed w → ¬ C w) (hroot : ¬ C (root m')) :
    Waits k' (root m') fun w => ∃ t timed, s.pc t = .asleep m' timed w := by
  refine (hi.chain m').frame ?_
  rintro c (rfl | ⟨t, timed, ht⟩)
  · refine hk _ ⟨fun e => hm (Mode.root_inj e), fun ⟨u, timed', hu⟩ => ?_, hroot⟩
    exact (hi.asleep hu).2.1 m' rfl
  · refine hk _ ⟨(hi.asleep ht).2.1 m, fun ⟨u, timed', hu⟩ => ?_, hoff t timed c ht⟩
    obtain rfl := hi.asleep_inj hu ht
    rw [ht] at hu
    cases hu
    exact hm rfl

theorem Inv.sleep (hi : Inv s) (h : (s.pc t).free) (htid : t ≤ intMax) (hroot : ∀ m, wait ≠ root m)
    (hlive : wait ∉ s.live) (hs : sleepOnChain c s t m timed wait = some s') : Inv s' := by
  unfold sleepOnChain at hs
  split at hs
  · cases hs
  have hpos : 0 < t := by
    have := c.cpu_pos
    omega
  have hfresh : ∀ u w, (s.pc u).record = some w → w ≠ wait := fun u w hu e =>
    hlive (e ▸ (hi.record u w hu).2.2.1)
  have hoff : ∀ m u timed, s.pc u ≠ .asleep m timed wait := fun m u timed hu =>
    hfresh u wait (by rw [hu]; rfl) rfl
  obtain ⟨k', hk', hw, hkept⟩ := (hi.chain m).add (hroot m) fun ⟨u, timed, hu⟩ => hoff m u timed hu
  rw [hk'] at hs
  obtain rfl := some.inj hs
  refine ⟨{ hi.counted with }, hi.bound, fun u w hu => ?_,
    fun m' => ?_, fun u timed' w hu => ?_, fun u m' w hu => ?_, fun u v hu => ?_,
    fun u v x y hu hv => ?_⟩
  all_goals simp only [St.goto, update_apply] at *
  · split at hu
    · cases hu
      subst u
      simp [hroot, hpos, htid]
    · have hww := hfresh u w hu
      obtain ⟨h1, h2, h3, h4⟩ := hi.record u w hu
      exact ⟨by simp [hww, h1], h2, mem_cons_of_mem wait h3, h4⟩
  · by_cases hm : m' = m
    · subst hm
      exact hw.congr fun w => by grind [Pc.free]
    · refine (hi.other_chain hm hkept ?_ ?_).congr fun w => ?_
      · exact fun u timed' w hu e => hoff m' u timed' (e ▸ hu)
      · exact (hroot m').symm
      · grind [Pc.free]
  · grind [Inv]
  · split at hu
    · cases hu
    · exact hi.woken u m' w hu
  · grind [Inv, Pc.free]
  · grind [Inv]

theorem Inv.nobody (hi : Inv s) (hs : s.shared = []) (he : s.excl = []) (t : Nat) :
    (∀ timed w, s.pc t ≠ .handed timed w) ∧ (∀ m w, s.pc t ≠ .woken m w) ∧
      ∀ u, s.pc t ≠ .resuming u := by
  have hhanded : ∀ t timed w, s.pc t ≠ .handed timed w := fun t timed w h => by
    simpa [he] using hi.handed t timed w h
  refine ⟨hhanded t, fun m w h => ?_, fun u h => ?_⟩
  · have := hi.woken t m w h
    cases m <;> simp [Holds, hs, he] at this
  · obtain ⟨timed, w, hu⟩ := hi.resuming t u h
    exact hhanded u timed w hu

/-- The first thread of a chain, and what taking its record off leaves of both chains. -/
theorem Inv.first (hi : Inv s) (hne : s.empty m = false) :
    ∃ f u timed n k', s.links.next (root m) = some f ∧ threadWaitDel s.links f = some (n, k') ∧
      s.pc u = .asleep m timed f ∧ (∀ m v timed, s.pc v = .asleep m timed f → v = u) ∧
      ∀ m', Waits k' (root m') fun w => (∃ t timed, s.pc t = .asleep m' timed w) ∧ w ≠ f := by
  obtain ⟨f, hf, ⟨rfl, -⟩ | ⟨-, ⟨u, timed, hu⟩, n, k', hdel, hw, -, -, hkept⟩⟩ := (hi.chain m).first
  · simp [St.empty, hf] at hne
  refine ⟨f, u, timed, n, k', hf, hdel, hu, fun _ _ _ => hi.asleep_inj hu, fun m' => ?_⟩
  by_cases hm : m' = m
  · exact hm ▸ hw
  refine (hi.other_chain hm (C := fun _ => False) (fun c hc => hkept c ⟨hc.1, hc.2.1⟩) (by simp)
    (by simp)).congr fun w => (and_iff_left_of_imp ?_).symm
  rintro ⟨t, timed', ht⟩ rfl
  obtain rfl := hi.asleep_inj hu ht
  rw [hu] at ht
  cases ht
  exact hm rfl

theorem Inv.passToWriter (hi : Inv s) (h : (s.pc t).free) (hz : s.readerCount = 0)
    (hne : s.empty .ex = false) (hs : passToWriter s t = some s') : Inv s' := by
  obtain ⟨hsh, hex⟩ := hi.counted.free hz
  have hnobody := hi.nobody hsh hex
  obtain ⟨f, u, timed, n, k', hf, hdel, hu, hrec, hw⟩ := hi.first hne
  obtain ⟨hthread, -, -, hpos, -⟩ := hi.asleep hu
  have hut : u ≠ t := by rintro rfl; simp [hu, Pc.free] at h
  simp only [Rwlock.passToWriter, hf, bind_eq_bind, bind_some, hdel, hthread, hu] at hs
  obtain rfl := some.inj hs
  refine ⟨⟨?_, ?_, ?_⟩, ?_, fun v w hv => ?_, fun m => ?_, fun v timed' w hv => ?_,
    fun v m w hv => ?_, fun v x hv => ?_, fun v x y z hv hx => ?_⟩
  all_goals simp only [St.goto, update_apply] at *
  · omega
  · omega
  · exact fun _ => ⟨hsh, u, by rw [hex], rfl⟩
  · unfold intMax
    omega
  · split at hv
    · cases hv
    · split at hv
      · subst v
        exact hi.record u w (by rw [hu]; exact hv)
      · exact hi.record v w hv
  · exact (hw m).congr fun w => by grind [Pc.free]
  · grind
  · grind
  · grind
  · grind

/-- In the loop that wakes the readers: the holders are the threads woken so far. -/
structure Waking (s : St) : Prop where
  excl : s.excl = []
  count : s.readerCount = s.shared.length
  nodup : (0 :: s.shared).Nodup
  woken : ∀ t ∈ s.shared, (t : Int) ≤ intMax ∧ ∃ m w, s.pc t = .woken m w

theorem Waking.count_lt (h : Waking s) (hpos : 0 < t) (ht : t ≤ intMax)
    (hnot : t ∉ s.shared) : s.readerCount < intMax := by
  have hnd : (t :: 0 :: s.shared).Nodup := by
    refine nodup_cons.2 ⟨?_, h.nodup⟩
    rw [mem_cons]
    exact fun hm => hm.elim (by omega) hnot
  have hlt : ∀ u ∈ t :: 0 :: s.shared, u < 2 ^ 31 := by
    intro u hu
    simp only [mem_cons, intMax] at hu ht
    rcases hu with rfl | rfl | hu
    · omega
    · omega
    · have := (h.woken u hu).1
      unfold intMax at this
      omega
  have := length_le_of_nodup_lt hnd hlt
  rw [h.count]
  simp only [length_cons, intMax] at this ⊢
  omega

section

variable (hi : Inv s) {fuel : Nat} {a : Act}
include hi

theorem Inv.wakeReader (hk : Waking s) (hne : s.empty .sh = false)
    (hs : wakeReader s = some s') : Inv s' ∧ Waking s' := by
  obtain ⟨f, u, timed, n, k', hf, hdel, hu, hrec, hw⟩ := hi.first hne
  obtain ⟨hthread, -, -, hpos, htid⟩ := hi.asleep hu
  have hnew : u ∉ s.shared := fun hm => by
    obtain ⟨m, w, h⟩ := (hk.woken u hm).2
    simp [hu] at h
  have hlt := hk.count_lt hpos htid hnew
  have hinc := increment_eq (Int.ne_of_lt hlt)
  obtain ⟨hex, hcount, hnd, hwoken⟩ := hk
  simp only [Rwlock.wakeReader, hf, bind_eq_bind, bind_some, hdel, hthread, hu, hinc] at hs
  cases hs
  have hcount' : s.readerCount + 1 = (u :: s.shared).length := by simp [hcount]
  refine ⟨⟨.of_readers hcount' hex, ?_, fun v w hv => ?_, fun m => ?_, fun v timed' w hv => ?_,
    fun v m w hv => ?_, fun v x hv => ?_, fun v x y z hv hx => ?_⟩, hex, hcount', ?_, fun v hv => ?_⟩
  all_goals simp only [St.goto, update_apply] at *
  · omega
  · split at hv
    · subst v
      exact hi.record u w (by rw [hu]; exact hv)
    · exact hi.record v w hv
  · exact (hw m).congr fun w => by grind
  · grind [Inv]
  · split at hv
    · subst v
      cases hv
      exact mem_cons_self
    · have := hi.woken v m w hv
      cases m with
      | ex => exact this
      | sh => exact mem_cons_of_mem u this
  · grind [Inv]
  · grind [Inv]
  · obtain ⟨h1, h2⟩ := nodup_cons.1 hnd
    refine nodup_cons.2 ⟨?_, nodup_cons.2 ⟨hnew, h2⟩⟩
    rw [mem_cons]
    exact fun hm => hm.elim (by omega) h1
  · rcases mem_cons.1 hv with rfl | hv
    · exact ⟨htid, .sh, f, by simp⟩
    · have hvu : v ≠ u := fun e => hnew (e ▸ hv)
      simpa [hvu] using hwoken v hv

theorem Inv.wakeReaders (hk : Waking s)
    (hne : s.empty .sh = false) (hs : wakeReaders fuel s = some s') : Inv s' := by
  induction fuel generalizing s with
  | zero => cases hs
  | succ fuel ih =>
    simp only [Rwlock.wakeReaders, bind_eq_bind, bind_eq_some_iff] at hs
    obtain ⟨s1, h1, hs⟩ := hs
    obtain ⟨hi1, hk1⟩ := hi.wakeReader hk hne h1
    split at hs
    · cases hs
      exact hi1
    · rename_i hne1
      exact ih hi1 hk1 (by simpa using hne1) hs

theorem Inv.writer (ht : t ∈ s.excl) : s.readerCount < 0 ∧ s.shared = [] ∧ s.excl = [t] := by
  have hneg : s.readerCount < 0 := by
    rcases Int.lt_trichotomy s.readerCount 0 with hlt | heq | hgt
    · exact hlt
    · simp [(hi.counted.free heq).2] at ht
    · simp [(hi.counted.readers hgt).2] at ht
  obtain ⟨hsh, u, hex, -⟩ := hi.counted.writer hneg
  obtain rfl : t = u := by simpa [hex] using ht
  exact ⟨hneg, hsh, hex⟩

/-- The writer's unlock frees the lock before it passes it on. -/
theorem Inv.exRelease (h : s.pc t = .idle) (ht : t ∈ s.excl) :
    Inv { s with excl := s.excl.erase t, readerCount := 0 } ∧ s.excl.erase t = [] ∧
      s.shared = [] := by
  obtain ⟨-, hsh, hex⟩ := hi.writer ht
  have herase : s.excl.erase t = [] := by simp [hex]
  have hnot : ∀ u timed w, s.pc u ≠ .handed timed w := fun u timed w hu => by
    obtain rfl : u = t := by simpa [hex] using hi.handed u timed w hu
    simp [h] at hu
  refine ⟨hi.rehold (by rw [h]; rfl) rfl rfl rfl (by rw [h]; rfl) (fun _ _ => rfl)
    (.of_readers (by simp [hsh]) herase) (show (0 : Int) ≤ intMax by decide)
    (fun u timed w hu => absurd hu (hnot u timed w)) fun u m w hu => ?_, herase, hsh⟩
  have := hi.woken u m w hu
  cases m with
  | ex =>
    obtain rfl : u = t := by simpa [Holds, hex] using this
    simp [h] at hu
  | sh => simp [Holds, hsh] at this

theorem Inv.exUnlock (h : s.pc t = .idle)
    (ht : t ∈ s.excl) (hs : exUnlock s t fuel = some s') : Inv s' := by
  obtain ⟨hi0, herase, hsh⟩ := hi.exRelease h ht
  have hidle : Inv ({ s with excl := s.excl.erase t, readerCount := 0 }.goto t .idle) :=
    hi0.goto_free (by rw [h]; rfl) rfl
  unfold Rwlock.exUnlock at hs
  split at hs
  · cases hs
  simp only [not_eq_true] at hs
  split at hs
  · rename_i hne
    exact hi0.passToWriter (by rw [h]; rfl) rfl hne hs
  · split_ifs at hs with hne
    · exact hidle.wakeReaders (by constructor <;> simp [St.goto, herase, hsh]) hne hs
    · cases hs
      exact hidle

theorem Inv.shUnlock (h : s.pc t = .idle)
    (ht : t ∈ s.shared) (hs : shUnlock s t = some s') : Inv s' := by
  unfold Rwlock.shUnlock at hs
  split at hs
  · cases hs
  rename_i hpos
  obtain ⟨hcount, hex⟩ := hi.counted.readers (not_not.1 hpos)
  have hlen : (s.shared.erase t).length = s.shared.length - 1 := length_erase_of_mem ht
  have hi1 : Inv { s with readerCount := s.readerCount - 1, shared := s.shared.erase t } := by
    refine hi.rehold (by rw [h]; rfl) rfl rfl rfl (by rw [h]; rfl) (fun _ _ => rfl)
      (.of_readers ?_ hex) ?_ hi.handed fun u m w hu => ?_
    · simp only
      omega
    · have := hi.bound
      simp only
      omega
    · have hut : u ≠ t := by rintro rfl; simp [h] at hu
      have := hi.woken u m w hu
      cases m with
      | ex => exact this
      | sh => exact (mem_erase_of_ne hut).2 this
  simp only [not_eq_true] at hs
  split_ifs at hs with hz
  · exact hi1.passToWriter (by rw [h]; rfl) hz.1 hz.2 hs
  · cases hs
    exact hi1.goto_free (by rw [h]; rfl) rfl

theorem Inv.resume (ht : s.pc t = .resuming u) (hu : s.pc u = .handed timed wait) :
    Inv ((s.goto u (.woken .ex wait)).goto t .idle) := by
  have hone := hi.resumer t
  have hold := hi.handed u timed wait hu
  refine ⟨{ hi.counted with }, hi.bound, fun v w hv => ?_,
    fun m => (hi.chain m).congr fun w => ?_, fun v timed' w hv => ?_, fun v m w hv => ?_,
    fun v x hv => ?_, fun v x y z hv hx => ?_⟩
  all_goals simp only [St.goto, update_apply] at *
  · split at hv
    · cases hv
    · split at hv
      · subst v
        exact hi.record u w (by rw [hu]; exact hv)
      · exact hi.record v w hv
  · grind
  · grind [Inv]
  · split at hv
    · cases hv
    · split at hv
      · subst v
        cases hv
        exact hold
      · exact hi.woken v m w hv
  · grind
  · grind

theorem Inv.lockReturn
    (ht : s.pc t = .woken m wait) (hs : lockReturn s t m wait = some s') : Inv s' := by
  obtain ⟨-, ⟨⟩⟩ := ite_none_right_eq_some.1 hs
  have hrec := (hi.record t wait (by rw [ht]; rfl)).1
  refine ⟨{ hi.counted with }, hi.bound, fun v w hv => ?_,
    fun m => (hi.chain m).congr fun w => ?_, fun v timed' w hv => ?_, fun v m w hv => ?_,
    fun v x hv => ?_, fun v x y z hv hx => ?_⟩
  all_goals simp only [St.goto, update_apply] at *
  · split at hv
    · cases hv
    · obtain ⟨h1, h2, h3, h4⟩ := hi.record v w hv
      refine ⟨h1, h2, (mem_erase_of_ne ?_).2 h3, h4⟩
      rintro rfl
      omega
  · grind
  · grind [Inv]
  · split at hv
    · cases hv
    · exact hi.woken v m w hv
  · grind [Inv]
  · grind [Inv]

theorem Inv.scribble {a thread : Nat} {next prev : Option Nat}
    (hroot : ∀ m, a ≠ root m) (hlive : a ∉ s.live) :
    Inv { s with
      links := (s.links.setNext a next).setPrev a prev
      thread := Function.update s.thread a thread } := by
  have hrec : ∀ t w, (s.pc t).record = some w → w ≠ a := fun t w h e =>
    hlive (e ▸ (hi.record t w h).2.2.1)
  refine ⟨{ hi.counted with }, hi.bound, fun t w h => ?_,
    fun m => (hi.chain m).frame ?_, hi.handed, hi.woken, hi.resuming, hi.resumer⟩
  · simpa [hrec t w h] using hi.record t w h
  · rintro c (rfl | ⟨t, timed, ht⟩)
    · simp [(hroot m).symm]
    · simp [hrec t c (by rw [ht]; rfl)]

theorem Inv.trySection (ht : s.pc t = .trying m)
    (hfits : s.grants m → s.fits t m) : Inv (trySection s t m) := by
  have hfree : (s.pc t).free := by rw [ht]; rfl
  unfold Rwlock.trySection
  split_ifs with hg
  · exact hi.acquire hfree hg (hfits hg)
  · exact hi.goto_free hfree rfl

theorem Inv.lockSection {spin : Nat} (ht : s.pc t = .spinning m timed spin)
    (hfits : s.grants m → s.fits t m) (htid : t ≤ intMax) (hroot : ∀ m, wait ≠ root m)
    (hlive : wait ∉ s.live) (hs : lockSection c s t m timed spin wait = some s') : Inv s' := by
  have hfree : (s.pc t).free := by rw [ht]; rfl
  unfold Rwlock.lockSection at hs
  split at hs
  · rename_i hg
    cases hs
    exact hi.acquire hfree hg (hfits hg)
  · split at hs
    · exact hi.sleep hfree htid hroot hlive hs
    · cases hs
      exact hi.goto_free hfree rfl

theorem Inv.step (hok : Sound s a) (hs : step c s a = some s') : Inv s' := by
  cases a with
  | tryLock t m =>
    obtain ⟨ht, hs⟩ := ite_none_right_eq_some.1 hs
    split at hs
    · cases hs
      exact hi
    · cases hs
      exact hi.goto_free (by rw [ht]; rfl) rfl
  | trySection t =>
    cases ht : s.pc t <;>
      simp only [Rwlock.step, Sound, ht, some.injEq, reduceCtorEq] at hs hok
    exact hs ▸ hi.trySection ht hok
  | lock t m timed =>
    obtain ⟨ht, ⟨⟩⟩ := ite_none_right_eq_some.1 hs
    exact hi.goto_free (by rw [ht]; rfl) rfl
  | spin t =>
    cases ht : s.pc t <;> simp only [Rwlock.step, ht, reduceCtorEq] at hs
    obtain ⟨-, ⟨⟩⟩ := ite_none_right_eq_some.1 hs
    exact hi.goto_free (by rw [ht]; rfl) rfl
  | lockSection t wait =>
    cases ht : s.pc t <;> simp only [Rwlock.step, Sound, ht, reduceCtorEq] at hs hok
    obtain ⟨⟨htid, hex, hsh, hlive⟩, hs⟩ := ite_none_right_eq_some.1 hs
    exact hi.lockSection ht hok htid (fun m => by cases m <;> assumption) hlive hs
  | expire t => exact hok.elim
  | exUnlock t fuel =>
    obtain ⟨h, hs⟩ := ite_none_right_eq_some.1 hs
    exact hi.exUnlock h.1 h.2 hs
  | shUnlock t =>
    obtain ⟨h, hs⟩ := ite_none_right_eq_some.1 hs
    exact hi.shUnlock h.1 h.2 hs
  | resume t =>
    cases ht : s.pc t <;> simp only [Rwlock.step, ht, reduceCtorEq] at hs
    obtain ⟨timed, wait, hu⟩ := hi.resuming t _ ht
    rw [hu] at hs
    cases hs
    exact hi.resume ht hu
  | lockReturn t =>
    cases ht : s.pc t <;> simp only [Rwlock.step, ht, reduceCtorEq] at hs
    exact hi.lockReturn ht hs
  | scribble a next prev thread =>
    obtain ⟨⟨hex, hsh, hlive⟩, ⟨⟩⟩ := ite_none_right_eq_some.1 hs
    exact hi.scribble (fun m => by cases m <;> assumption) hlive

/-! ## Results -/

theorem Inv.good : Good s := by
  refine ⟨fun t ht => (hi.writer ht).2.symm, hi.counted, fun m => ?_, hi.handed, hi.woken⟩
  obtain ⟨l, hl, hmem⟩ := hi.chain m
  refine ⟨l, hl, fun w hw => ?_⟩
  obtain ⟨t, timed, ht⟩ := (hmem w).1 hw
  exact ⟨timed, by rw [(hi.asleep ht).1]; exact ht⟩

/-- After an expiry the record of a thread that sleeps no more is on the chain, or the count
names a writer whose call has returned false. -/
theorem Inv.not_good_of_expire (hs : Rwlock.step c s (.expire t) = some s') : ¬ Good s' := by
  intro hg
  simp only [Rwlock.step] at hs
  split at hs
  · rename_i m wait ht
    cases hs
    obtain ⟨l, hl, hmem⟩ := hi.chain m
    obtain ⟨l', hl', hmem'⟩ := hg.queued m
    obtain rfl := hl.unique hl'
    obtain ⟨timed, hpc⟩ := hmem' wait ((hmem wait).2 ⟨t, true, ht⟩)
    simp [St.goto, (hi.asleep ht).1] at hpc
  · rename_i wait ht
    cases hs
    obtain ⟨hneg, -, hex⟩ := hi.writer (hi.handed t true wait ht)
    obtain ⟨-, u, hu, -⟩ := hg.counted.writer hneg
    simp [St.goto, hex] at hu
  · cases hs

/-- As the writer, thread 0 makes the count that of a free lock; a reader counted beyond the
largest `int` makes it that of a writer. -/
theorem Inv.not_good_of_acquire (hg : s.grants m)
    (hno : ¬ s.fits t m) : ¬ Good (s.acquire t m) := by
  intro hgood
  cases m with
  | ex =>
    obtain rfl : t = 0 := not_not.1 hno
    have := (hgood.counted.free rfl).2
    simp [St.acquire, St.goto] at this
  | sh =>
    have hmax : s.readerCount = intMax := not_not.1 hno
    obtain ⟨-, hex⟩ := hi.counted.readers (by rw [hmax]; decide)
    obtain ⟨-, u, hu, -⟩ := hgood.counted.writer
      (by simp [St.acquire, St.goto, increment, hmax, intMax])
    simp [St.acquire, St.goto, hex] at hu

theorem Inv.not_good_of_not_sound
    (hno : ¬ Sound s a) (hs : Rwlock.step c s a = some s') : ¬ Good s' := by
  cases a with
  | expire t => exact hi.not_good_of_expire hs
  | trySection t =>
    simp only [Sound] at hno
    split at hno
    · rename_i m ht
      obtain ⟨hg, hfits⟩ := Classical.not_imp.1 hno
      simp only [Rwlock.step, ht, Rwlock.trySection, hg, if_true, some.injEq] at hs
      exact hs ▸ hi.not_good_of_acquire hg hfits
    · exact absurd trivial hno
  | lockSection t wait =>
    simp only [Sound] at hno
    split at hno
    · rename_i m timed spin ht
      obtain ⟨hg, hfits⟩ := Classical.not_imp.1 hno
      simp only [Rwlock.step, ht, Rwlock.lockSection, hg, if_true,
        ite_none_right_eq_some, some.injEq] at hs
      exact hs.2 ▸ hi.not_good_of_acquire hg hfits
    · exact absurd trivial hno
  | _ => exact absurd trivial hno

end

theorem rwlock_right_iff (c : Cfg) (s : St) (h : Init c s) (acts : List Act) :
    (lts c).Always Good s acts ↔ (lts c).Meets Sound s acts :=
  LTS.always_iff (fun _ hi => hi.good) (fun _ _ _ hi hok hs => hi.step hok hs)
    (fun _ _ _ hi hno hs => hi.not_good_of_not_sound hno hs) (Inv.of_init h) acts

/-- Two processors; threads 0 and 1 are idle threads. -/
def sampleCfg : Cfg := ⟨false, 2, by decide⟩

def sampleSt : St :=
  { readerCount := 0
    spinCount := 0
    links := ⟨fun a => if a ≤ 1 then some a else none, fun a => if a ≤ 1 then some a else none⟩
    thread := fun _ => 0
    live := []
    shared := []
    excl := []
    pc := fun _ => .idle }

theorem sampleSt_init : Init sampleCfg sampleSt :=
  ⟨rfl, rfl, fun m => by cases m <;> rfl, fun m => by cases m <;> rfl, rfl, rfl, rfl, fun _ => rfl⟩

/-- Thread 2 writes, thread 3 waits to read and is woken by the unlock. -/
theorem rwlock_right_sample : (lts sampleCfg).Always Good sampleSt
    [.lock 2 .ex false, .lockSection 2 64, .lock 3 .sh true, .lockSection 3 96, .exUnlock 2 1,
      .lockReturn 3, .shUnlock 3] :=
  (rwlock_right_iff sampleCfg sampleSt sampleSt_init _).2 <|
    .cons rfl trivial <| .cons rfl (fun _ => (by decide : 2 ≠ 0)) <| .cons rfl trivial <|
    .cons rfl (fun _ => (by decide : (-2 : Int) ≠ intMax)) (by simp [LTS.Meets, Sound])

/-- Thread 0 takes the lock exclusively, and then so does thread 2. -/
theorem writer_zero_shares : ∃ s, (lts sampleCfg).Reachable s ∧ s.excl = [2, 0] ∧ ¬ Good s := by
  have hrun : (lts sampleCfg).Run sampleSt
      [.lock 0 .ex false, .lockSection 0 64, .lock 2 .ex false, .lockSection 2 96] _ :=
    .cons rfl (.cons rfl (.cons rfl (.cons rfl (.nil _))))
  exact ⟨_, ⟨sampleSt, _, sampleSt_init, hrun⟩, rfl, fun hg =>
    absurd (hg.exclusive 2 (by decide)).1 (by decide)⟩

/-! ## Upgrade -/

/-- `rwlock_upgrade` up to its return or its sleep, in which the thread stays a reader.
mirrors threadsync.cc:346-381 -/
def upgrade (c : Cfg) (s : St) (t : Nat) (timed : Bool) (wait : Nat) : Option St :=
  if ¬ 0 < s.readerCount then none
  else if s.readerCount = 1 then
    some ({ s with readerCount := -t, shared := s.shared.erase t, excl := t :: s.excl }.goto t .idle)
  else (sleepOnChain c s t .ex timed wait).map fun s' => { s' with spinCount := s.spinCount }

/-- The thread that takes the step. -/
def Act.thread : Act → Option Nat
  | .tryLock t _ | .trySection t | .lock t _ _ | .spin t | .lockSection t _ | .expire t
  | .exUnlock t _ | .shUnlock t | .resume t | .lockReturn t => some t
  | .scribble _ _ _ _ => none

/-- A step that is not of the thread `t`, in which nobody acquires the lock but by an unlock. -/
def Quiet (c : Cfg) (t : Nat) (s s' : St) : Prop :=
  s'.shared.length + s'.excl.length ≤ s.shared.length + s.excl.length ∧
    ∃ a : Act, a.thread ≠ some t ∧ step c s a = some s'

/-- The thread has the lock for itself, is counted as the writer, and runs. -/
structure Upgraded (s : St) (t : Nat) : Prop where
  holds : s.excl = [t] ∧ s.shared = []
  counted : s.readerCount = -t ∧ s.readerCount < 0
  runs : s.pc t = .idle

/-- There are readers only, and the thread is one of them. -/
structure Reads (s : St) (t : Nat) : Prop where
  counted : s.readerCount = s.shared.length
  shared : t ∈ s.shared
  excl : s.excl = []

variable {s1 s2 : St}

theorem sleepOnChain_holds (h : sleepOnChain c s u m timed wait = some s') :
    s'.readerCount = s.readerCount ∧ s'.shared = s.shared ∧ s'.excl = s.excl ∧
      ∀ t ≠ u, s'.pc t = s.pc t := by
  obtain ⟨-, h⟩ := ite_none_left_eq_some.1 h
  obtain ⟨links, -, ⟨⟩⟩ := bind_eq_some_iff.1 h
  exact ⟨rfl, rfl, rfl, fun t ht => update_of_ne ht ..⟩

theorem lockReturn_eq (h : lockReturn s u m wait = some s') :
    { s with live := s.live.erase wait }.goto u .idle = s' :=
  some.inj (ite_none_right_eq_some.1 h).2

/-- Readers that unlock do not get the count to 0 while the thread is one of them. -/
theorem Reads.shUnlock (h : Reads s t) (hu : u ∈ s.shared) (hut : t ≠ u)
    (hs : shUnlock s u = some s') : Reads s' t := by
  obtain ⟨hc, ht, he⟩ := h
  have ht' := (mem_erase_of_ne hut).2 ht
  have := length_erase_of_mem hu
  have := length_pos_of_mem ht'
  simp only [Rwlock.shUnlock, if_neg (show ¬ ¬ 0 < s.readerCount by omega)] at hs
  rw [if_neg fun h0 => by omega] at hs
  cases hs
  exact ⟨by simp only [St.goto]; omega, ht', he⟩

theorem Quiet.keeps (hq : Quiet c t s s') :
    (Reads s t → Reads s' t) ∧ (Upgraded s t → Upgraded s' t) := by
  obtain ⟨hlen, a, ha, hs⟩ := hq
  have hne : ∀ u m, s.acquire u m ≠ s' := by
    rintro u m rfl
    cases m <;> simp only [St.acquire, St.goto, length_cons] at hlen <;> omega
  have hsleep := @sleepOnChain_holds c s s'
  have hreturn := @lockReturn_eq s s'
  have hgo : ∀ (s : St) u pc, u ≠ t → (s.goto u pc).pc t = s.pc t := fun _ _ _ h =>
    update_of_ne h.symm ..
  cases a with
  | shUnlock u =>
    obtain ⟨⟨-, hu⟩, hs⟩ := ite_none_right_eq_some.1 hs
    refine ⟨fun h => h.shUnlock hu (fun e => ha (congrArg some e.symm)) hs, fun h => ?_⟩
    rw [h.holds.2] at hu
    cases hu
  | _ =>
    simp only [Rwlock.step, Act.thread, ne_eq, some.injEq] at hs ha
    refine ⟨fun ⟨hc, ht, he⟩ => ⟨?_, ?_, ?_⟩, fun ⟨hh, hc, hpc⟩ => ⟨?_, ?_, ?_⟩⟩ <;>
      grind [St.goto, trySection, lockSection]

theorem Quiet.run (hrun : Relation.ReflTransGen (Quiet c t) s s') :
    (Reads s t → Reads s' t) ∧ (Upgraded s t → Upgraded s' t) := by
  induction hrun with
  | refl => exact ⟨id, id⟩
  | tail _ hq ih => exact ⟨hq.keeps.1 ∘ ih.1, hq.keeps.2 ∘ ih.2⟩

/-- **Upgrade.** Whatever the other threads have done since, short of acquiring the lock, the
thread has it if and only if it was the only reader when it called, and is not thread 0. -/
theorem upgrade_right_iff (hcount : Counted s) (ht : t ∈ s.shared)
    (hup : upgrade c s t timed wait = some s1)
    (hrun : Relation.ReflTransGen (Quiet c t) s1 s2) :
    Upgraded s2 t ↔ s.shared = [t] ∧ t ≠ 0 := by
  obtain ⟨hpos, hup⟩ := ite_none_left_eq_some.1 hup
  obtain ⟨hlen, hex⟩ := hcount.readers (not_not.1 hpos)
  by_cases h1 : s.readerCount = 1
  · obtain ⟨v, hv⟩ := length_eq_one_iff.1 (show s.shared.length = 1 by omega)
    obtain rfl : t = v := by simpa [hv] using ht
    rw [if_pos h1] at hup
    cases hup
    refine ⟨fun h => ⟨hv, ?_⟩, fun ⟨_, h0⟩ => ?_⟩
    · rintro rfl
      exact absurd h.counted.2 (by rw [h.counted.1]; decide)
    · exact (Quiet.run hrun).2 ⟨⟨by simp [St.goto, hex], by simp [St.goto, hv]⟩,
        ⟨rfl, by simp [St.goto]; omega⟩, update_self ..⟩
  · rw [if_neg h1] at hup
    obtain ⟨s', hs', rfl⟩ := map_eq_some_iff.1 hup
    obtain ⟨hc, hs, he, -⟩ := sleepOnChain_holds hs'
    have hreads := (Quiet.run hrun).1 ⟨by simp only [hc, hs, hlen], hs ▸ ht, he.trans hex⟩
    refine iff_of_false (fun h => ?_) fun h => h1 (by rw [hlen, h.1]; rfl)
    cases hreads.excl.symm.trans h.holds.1

/-- Two readers, or one. -/
def readersSt (l : List Nat) : St := { sampleSt with readerCount := l.length, shared := l }

/-- The other reader unlocks, and the upgrading thread sleeps on. -/
theorem upgrade_sleeps : ∃ s1 s2, upgrade sampleCfg (readersSt [2, 3]) 2 false 64 = some s1 ∧
    step sampleCfg s1 (.shUnlock 3) = some s2 ∧ s2.shared = [2] ∧ s2.readerCount = 1 ∧
    s2.pc 2 = .asleep .ex false 64 ∧ ¬ Upgraded s2 2 :=
  ⟨_, _, rfl, rfl, rfl, rfl, rfl, fun h => nomatch h.runs⟩

theorem upgrade_right_alone : ∃ s1, upgrade sampleCfg (readersSt [2]) 2 false 64 = some s1 ∧
    Upgraded s1 2 :=
  ⟨_, rfl, (@upgrade_right_iff sampleCfg (readersSt [2]) 2 64 false _ _ (.of_readers rfl rfl)
    mem_cons_self rfl .refl).2 ⟨rfl, by decide⟩⟩

end Dgos.L5.Rwlock
