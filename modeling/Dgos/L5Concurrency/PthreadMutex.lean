import Dgos.Core.Lts

/-!
# The mutex of the C library (libc/src/pthread)

`pthread_mutex_lock` reads the owner word. When the caller is the owner it counts a recursion.
Otherwise it spins: it tries to exchange a word it saw free, reads the word again while it is
owned, and after a thousand rounds waits in the kernel for the word to change. After a wait it
makes one round, and that round does not read the word again.

One step is one access to the mutex. The weak exchange may fail on a free mutex. FUTEX_WAIT
compares and goes to sleep in one step, and a sleeping thread may return at any time.
`depth` counts, for every thread, the lock calls that succeeded less the unlocks; `owned` is
whether the thread had the mutex when it made the call it is in.

Results:
* `pthread_mutex_right_iff`: along a run the mutex has one owner, a lock of a thread that does
  not have it returns 0 and makes it the owner, and the mutex is released by as many unlocks as
  it was locked, if and only if every FUTEX_WAIT finds the word as the caller last saw it and
  the owner does not try the lock when the count of recursions is at its limit.
* `lock_returns_error`: a run in which the owner unlocks before another thread waits, and the
  lock of that thread fails.
-/
namespace Dgos.L5.PthreadMutex

open Function Option

/-! ## State -/

inductive Call where
  | lock
  | trylock
  | unlock
  deriving DecidableEq, Repr

/-- The next access of a thread. -/
inductive Pc where
  | out
  | returned (call : Call) (code : Int)
  | lockLoad
  | lockRecursion
  /-- at the head of the inner loop of `pthread_mutex_timedlock` -/
  | lockSpin (value spinsRemain : Int)
  /-- asleep in the futex -/
  | lockWait (value : Int)
  | tryLoad
  | tryRecursion
  | tryReload
  | tryExchange
  | unlockOwner
  | unlockRecursions
  | unlockWake
  deriving DecidableEq, Repr

/-- `pthread_mutex_t` and the threads.
mirrors libc/include/pthread.h:78-82 -/
structure St where
  sig : Nat
  owner : Int
  recursions : Int
  pc : Nat → Pc
  depth : Nat → Nat
  owned : Nat → Bool

/-- mirrors libc/include/pthread.h:75-76 -/
def pthreadMutexSig : Nat := 0x50545f4d75746578

def intMax : Int := 2 ^ 31 - 1

def EAGAIN : Int := 6
def EBUSY : Int := 15
def EDEADLK : Int := 23
def EINVAL : Int := 36
def EPERM : Int := 93

/-- An initialised mutex, recursive or not, and nobody in a call.
mirrors libc/include/pthread.h:84 -/
structure Init (s : St) : Prop where
  sig : s.sig = pthreadMutexSig
  owner : s.owner = -1
  recursions : s.recursions = -1 ∨ s.recursions = 0
  pc : ∀ t, s.pc t = .out
  depth : ∀ t, s.depth t = 0

/-! ## The code -/

def St.goto (s : St) (t : Nat) (pc : Pc) : St := { s with pc := Function.update s.pc t pc }

def St.ret (s : St) (t : Nat) (call : Call) (code : Int) : St := s.goto t (.returned call code)

/-- A call of the thread succeeds in taking the mutex once more. -/
def St.locked (s : St) (t : Nat) : St :=
  { s with depth := Function.update s.depth t (s.depth t + 1) }

def St.unlocked (s : St) (t : Nat) : St :=
  { s with depth := Function.update s.depth t (s.depth t - 1) }

/-- What the C library makes of the result of the system call.
mirrors __futex.cc:7-23 -/
def futex (result : Int) : Int := if 0 ≤ result then result else -1

/-- The first steps of the calls. `pthread_mutex_trylock` does not look at `sig`.
mirrors pthread_mutex_timedlock.cc:8-11,
pthread_mutex_unlock.cc:7-10 and
pthread_mutex_trylock.cc:8 -/
def enter (s : St) (t : Nat) (call : Call) : St :=
  match call with
  | .lock => if s.sig ≠ pthreadMutexSig then s.ret t .lock EINVAL else s.goto t .lockLoad
  | .trylock => s.goto t .tryLoad
  | .unlock => if s.sig ≠ pthreadMutexSig then s.ret t .unlock EINVAL else s.goto t .unlockOwner

/-- mirrors pthread_mutex_timedlock.cc:13-32 -/
def lockLoad (s : St) (t : Nat) : St :=
  let value := s.owner
  if value = t then s.goto t .lockRecursion else s.goto t (.lockSpin value 1000)

/-- mirrors pthread_mutex_timedlock.cc:19-28 -/
def lockRecursion (s : St) (t : Nat) : St :=
  if s.recursions < 0 then s.ret t .lock EDEADLK
  else if s.recursions = intMax then s.ret t .lock EAGAIN
  else ({ s with recursions := s.recursions + 1 }.locked t).ret t .lock 0

/-- The wait with the value the loop last saw.
mirrors pthread_mutex_timedlock.cc:46-51 and
kernel/syscall/sys_process.cc:59-66 -/
def lockFutexWait (s : St) (t : Nat) (value : Int) : St :=
  if s.owner ≠ value then s.ret t .lock (-futex (-EAGAIN)) else s.goto t (.lockWait value)

/-- One round of the inner loop, or its end.
mirrors pthread_mutex_timedlock.cc:33-42 -/
def lockSpin (s : St) (t : Nat) (value spinsRemain : Int) (weakFails : Bool) : St :=
  if value = -1 then
    if s.owner = -1 ∧ weakFails = false then ({ s with owner := t }.locked t).ret t .lock 0
    else s.goto t (.lockSpin s.owner spinsRemain)
  else if spinsRemain - 1 ≠ 0 then s.goto t (.lockSpin s.owner (spinsRemain - 1))
  else lockFutexWait s t value

/-- mirrors pthread_mutex_trylock.cc:11 -/
def tryLoad (s : St) (t : Nat) : St :=
  if s.owner = t then s.goto t .tryRecursion else s.goto t .tryReload

/-- mirrors pthread_mutex_trylock.cc:14-20 -/
def tryRecursion (s : St) (t : Nat) : St :=
  if s.recursions < 0 then s.ret t .trylock (-EDEADLK)
  else if s.recursions < intMax then
    ({ s with recursions := s.recursions + 1 }.locked t).ret t .trylock 0
  else (s.locked t).ret t .trylock 0

/-- mirrors pthread_mutex_trylock.cc:26-35 -/
def tryReload (s : St) (t : Nat) : St :=
  if s.owner = -1 then s.goto t .tryExchange else s.ret t .trylock EBUSY

/-- mirrors pthread_mutex_trylock.cc:29-35 -/
def tryExchange (s : St) (t : Nat) : St :=
  if s.owner = -1 then ({ s with owner := t }.locked t).ret t .trylock 0
  else s.ret t .trylock EBUSY

/-- mirrors pthread_mutex_unlock.cc:12-13 -/
def unlockOwner (s : St) (t : Nat) : St :=
  if s.owner ≠ t then s.ret t .unlock EPERM else s.goto t .unlockRecursions

/-- mirrors pthread_mutex_unlock.cc:15-22 -/
def unlockRecursions (s : St) (t : Nat) : St :=
  if 0 < s.recursions then
    ({ s with recursions := s.recursions - 1 }.unlocked t).ret t .unlock 0
  else ({ s with owner := -1 }.unlocked t).goto t .unlockWake

/-! ## Steps -/

inductive Act where
  | call (t : Nat) (call : Call)
  /-- the next access of a thread; `weakFails` is what a weak exchange does on a free mutex -/
  | run (t : Nat) (weakFails : Bool)
  /-- FUTEX_WAIT returns 0 -/
  | wake (t : Nat)

/-- The thread is in no call. -/
def Pc.outside : Pc → Bool
  | .out => true
  | .returned _ _ => true
  | _ => false

def step (s : St) : Act → Option St
  | .call t call =>
    if (s.pc t).outside then
      some (enter { s with owned := Function.update s.owned t (0 < s.depth t) } t call)
    else none
  | .run t weakFails =>
    match s.pc t with
    | .out | .returned _ _ | .lockWait _ => none
    | .lockLoad => some (lockLoad s t)
    | .lockRecursion => some (lockRecursion s t)
    | .lockSpin value spinsRemain => some (lockSpin s t value spinsRemain weakFails)
    | .tryLoad => some (tryLoad s t)
    | .tryRecursion => some (tryRecursion s t)
    | .tryReload => some (tryReload s t)
    | .tryExchange => some (tryExchange s t)
    | .unlockOwner => some (unlockOwner s t)
    | .unlockRecursions => some (unlockRecursions s t)
    | .unlockWake => some (s.ret t .unlock 0)
  | .wake t =>
    match s.pc t with
    | .lockWait value => some (s.goto t (.lockSpin value 1))
    | _ => none

def lts : LTS St Act where
  init := Init
  step s a s' := step s a = some s'

/-! ## What the mutex is for -/

/-- How many unlocks of its owner release the mutex. -/
def St.unlocksLeft (s : St) : Nat := s.recursions.toNat + 1

structure Good (s : St) : Prop where
  exclusive : ∀ t u, 0 < s.depth t → 0 < s.depth u → t = u
  owner : ∀ t : Nat, s.owner = t ↔ 0 < s.depth t
  noError : ∀ t code, s.pc t = .returned .lock code → s.owned t = false → code = 0
  locker : ∀ t, s.pc t = .returned .lock 0 → s.owner = t
  released : ∀ t : Nat, s.owner = t → s.unlocksLeft = s.depth t

/-- The word is as the waiting thread last saw it; the count has room for the owner's trylock. -/
def Sound (s : St) : Act → Prop
  | .run t _ =>
    match s.pc t with
    | .lockSpin value spinsRemain => value ≠ -1 → spinsRemain = 1 → s.owner = value
    | .tryRecursion => s.recursions ≠ intMax
    | _ => True
  | _ => True

/-! ## Invariant -/

/-- What is known of a thread at a place: whether it has the mutex, and whether it had it at the
call. -/
def Pc.Fits : Pc → Prop → Bool → Prop
  | .out, _, _ => True
  | .returned .lock code, own, owned => (owned = false → code = 0) ∧ (code = 0 → own)
  | .returned _ _, _, _ => True
  | .lockLoad, own, owned => owned = true ↔ own
  | .lockRecursion, own, owned => own ∧ owned = true
  | .lockSpin _ _, own, owned => ¬ own ∧ owned = false
  | .lockWait _, own, owned => ¬ own ∧ owned = false
  | .tryLoad, _, _ => True
  | .tryRecursion, own, _ => own
  | .tryReload, own, _ => ¬ own
  | .tryExchange, own, _ => ¬ own
  | .unlockOwner, _, _ => True
  | .unlockRecursions, own, _ => own
  | .unlockWake, own, _ => ¬ own

structure Inv (s : St) : Prop where
  sig : s.sig = pthreadMutexSig
  range : s.recursions ≤ intMax
  held : s.owner = -1 ∨ ∃ t : Nat, s.owner = t
  owner : ∀ t : Nat, s.owner = t ↔ 0 < s.depth t
  free : s.owner = -1 → s.recursions ≤ 0
  released : ∀ t : Nat, s.owner = t → s.unlocksLeft = s.depth t
  threads : ∀ t : Nat, (s.pc t).Fits (s.owner = t) (s.owned t)

variable {s s' : St} {t : Nat}

theorem Init.inv (h : Init s) : Inv s := by
  have ho := h.owner
  refine ⟨h.sig, ?_, .inl ho, fun t => ?_, fun _ => ?_, fun t ht => ?_, fun t => ?_⟩
  · rcases h.recursions with hr | hr <;> rw [hr] <;> decide
  · rw [h.depth]
    omega
  · rcases h.recursions with hr | hr <;> omega
  · omega
  · rw [h.pc]
    trivial

section

variable (hi : Inv s) {call : Call} {weakFails : Bool} {spinsRemain value : Int} {a : Act} {pc : Pc}
include hi

theorem Inv.good : Good s := by
  refine ⟨fun t u ht hu => ?_, hi.owner, fun t code hpc ho => ?_, fun t hpc => ?_, hi.released⟩
  · have h1 := (hi.owner t).2 ht
    have h2 := (hi.owner u).2 hu
    omega
  · have := hi.threads t
    rw [hpc] at this
    exact this.1 ho
  · have := hi.threads t
    rw [hpc] at this
    exact this.2 rfl

/-- A thread moves, and for the others it stays the same who has the mutex. -/
theorem Inv.fits {o : Int} (h : pc.Fits (o = t) (s.owned t))
    (hother : ∀ u ≠ t, o = u ↔ s.owner = u) (u : Nat) :
    (update s.pc t pc u).Fits (o = u) (s.owned u) := by
  by_cases hu : u = t
  · subst hu
    rwa [update_self]
  · rw [update_of_ne hu, propext (hother u hu)]
    exact hi.threads u

theorem Inv.goto (h : pc.Fits (s.owner = t) (s.owned t)) : Inv (s.goto t pc) :=
  ⟨hi.sig, hi.range, hi.held, hi.owner, hi.free, hi.released, hi.fits h fun _ _ => Iff.rfl⟩

theorem Inv.take (ho : s.owner = -1) : Inv (({ s with owner := t }.locked t).ret t call 0) := by
  have hdepth : ∀ u, s.depth u = 0 := fun u => by
    have := hi.owner u
    omega
  have hrec := hi.free ho
  refine ⟨hi.sig, hi.range, .inr ⟨t, rfl⟩, fun u => ?_, fun h => ?_, fun u hu => ?_,
    hi.fits (o := t) (by cases call <;> simp [Pc.Fits]) fun u hu => by omega⟩
  · simp only [St.ret, St.goto, St.locked, update_apply, hdepth]
    split <;> omega
  · simp [St.ret, St.goto, St.locked] at h
  · obtain rfl : t = u := Int.ofNat.inj hu
    simp [St.ret, St.goto, St.locked, St.unlocksLeft, hdepth]
    omega

/-- The recursions and the depth of the owner change together. -/
theorem Inv.recount {n : Int} {d : Nat} (ho : s.owner = t) (hn : n ≤ intMax)
    (hd : n.toNat + 1 = d) (h : pc.Fits (s.owner = t) (s.owned t)) :
    Inv ({ s with recursions := n, depth := update s.depth t d }.goto t pc) := by
  refine ⟨hi.sig, hn, hi.held, fun u => ?_, fun h => ?_, fun u hu => ?_,
    hi.fits h fun _ _ => Iff.rfl⟩
  · have := hi.owner u
    simp only [St.goto, update_apply]
    split <;> omega
  · simp only [St.goto] at h
    omega
  · obtain rfl : t = u := Int.ofNat.inj (ho.symm.trans hu)
    simpa [St.goto, St.unlocksLeft] using hd

theorem Inv.recurse (ho : s.owner = t) (h0 : 0 ≤ s.recursions) (hlt : s.recursions < intMax) :
    Inv (({ s with recursions := s.recursions + 1 }.locked t).ret t call 0) := by
  have hrel := hi.released t ho
  unfold St.unlocksLeft at hrel
  exact hi.recount (n := s.recursions + 1) (d := s.depth t + 1) ho (by omega) (by omega)
    (by cases call <;> simp [Pc.Fits, ho])

theorem Inv.release (ho : s.owner = t) (h0 : s.recursions ≤ 0) :
    Inv (({ s with owner := -1 }.unlocked t).goto t .unlockWake) := by
  have hrel := hi.released t ho
  refine ⟨hi.sig, hi.range, .inl rfl, fun u => ?_, fun _ => h0, fun u hu => ?_,
    hi.fits (o := -1) (by simp [Pc.Fits]) fun u hu => by omega⟩
  · have := hi.owner u
    simp only [St.goto, St.unlocked, update_apply, St.unlocksLeft] at hrel ⊢
    split
    · omega
    · omega
  · simp only [St.goto, St.unlocked] at hu
    omega

/-! ## One step -/

theorem Inv.enter (call : Call) :
    Inv (enter { s with owned := Function.update s.owned t (0 < s.depth t) } t call) := by
  have hcall : ∀ pc : Pc, pc.Fits (s.owner = t) (decide (0 < s.depth t)) →
      Inv ({ s with owned := Function.update s.owned t (0 < s.depth t) }.goto t pc) := by
    intro pc h
    refine ⟨hi.sig, hi.range, hi.held, hi.owner, hi.free, hi.released, fun u => ?_⟩
    by_cases hu : u = t
    · subst hu
      simpa [St.goto] using h
    · simpa [St.goto, hu] using hi.threads u
  cases call with
  | lock =>
    rw [PthreadMutex.enter, if_neg (not_not.2 hi.sig)]
    refine hcall .lockLoad ?_
    simp only [Pc.Fits, decide_eq_true_eq]
    exact (hi.owner t).symm
  | trylock => exact hcall .tryLoad trivial
  | unlock =>
    rw [PthreadMutex.enter, if_neg (not_not.2 hi.sig)]
    exact hcall .unlockOwner trivial

theorem Inv.lockLoad (hf : Pc.lockLoad.Fits (s.owner = t) (s.owned t)) : Inv (lockLoad s t) := by
  simp only [Pc.Fits] at hf
  by_cases ho : s.owner = t
  · rw [PthreadMutex.lockLoad, if_pos ho]
    exact hi.goto ⟨ho, hf.2 ho⟩
  · rw [PthreadMutex.lockLoad, if_neg ho]
    refine hi.goto ⟨ho, ?_⟩
    simpa [ho] using hf

theorem Inv.lockRecursion (hf : Pc.lockRecursion.Fits (s.owner = t) (s.owned t)) :
    Inv (lockRecursion s t) := by
  obtain ⟨ho, howned⟩ := hf
  have hrange := hi.range
  unfold PthreadMutex.lockRecursion
  split
  · exact hi.goto (by simp [Pc.Fits, howned, ho])
  · split
    · exact hi.goto (by simp [Pc.Fits, howned, ho])
    · exact hi.recurse ho (by omega) (by omega)

theorem Inv.lockSpin (hf : (Pc.lockSpin value spinsRemain).Fits (s.owner = t) (s.owned t))
    (hok : value ≠ -1 → spinsRemain = 1 → s.owner = value) :
    Inv (lockSpin s t value spinsRemain weakFails) := by
  unfold PthreadMutex.lockSpin
  split
  · split_ifs with ho
    · exact hi.take ho.1
    · exact hi.goto hf
  · rename_i hv
    split
    · exact hi.goto hf
    · have : s.owner = value := hok hv (by omega)
      rw [lockFutexWait, if_neg (not_not.2 this)]
      exact hi.goto hf

theorem Inv.tryLoad : Inv (tryLoad s t) := by
  unfold PthreadMutex.tryLoad
  split <;> exact hi.goto ‹_›

theorem Inv.tryRecursion (ho : s.owner = t) (hok : s.recursions ≠ intMax) :
    Inv (tryRecursion s t) := by
  have hrange := hi.range
  unfold PthreadMutex.tryRecursion
  split
  · exact hi.goto trivial
  · rw [if_pos (by omega)]
    exact hi.recurse ho (by omega) (by omega)

theorem Inv.tryReload (ho : s.owner ≠ t) : Inv (tryReload s t) := by
  unfold PthreadMutex.tryReload
  split
  · exact hi.goto ho
  · exact hi.goto trivial

theorem Inv.tryExchange : Inv (tryExchange s t) := by
  unfold PthreadMutex.tryExchange
  split
  · exact hi.take ‹_›
  · exact hi.goto trivial

theorem Inv.unlockOwner : Inv (unlockOwner s t) := by
  by_cases ho : s.owner = t
  · rw [PthreadMutex.unlockOwner, if_neg (not_not.2 ho)]
    exact hi.goto ho
  · rw [PthreadMutex.unlockOwner, if_pos ho]
    exact hi.goto trivial

theorem Inv.unlockRecursions (ho : s.owner = t) : Inv (unlockRecursions s t) := by
  unfold PthreadMutex.unlockRecursions
  split
  · have hrel := hi.released t ho
    have hrange := hi.range
    unfold St.unlocksLeft at hrel
    exact hi.recount (n := s.recursions - 1) (d := s.depth t - 1) ho (by omega) (by omega) trivial
  · exact hi.release ho (by omega)

theorem Inv.step (hok : Sound s a) (hs : step s a = some s') : Inv s' := by
  cases a with
  | call t call =>
    obtain ⟨-, ⟨⟩⟩ := ite_none_right_eq_some.1 hs
    exact hi.enter call
  | wake t =>
    have hf := hi.threads t
    cases hpc : s.pc t <;>
      simp only [PthreadMutex.step, hpc, some.injEq, reduceCtorEq] at hs hf
    exact hs ▸ hi.goto hf
  | run t weakFails =>
    have hf := hi.threads t
    simp only [Sound] at hok
    cases hpc : s.pc t <;>
      simp only [PthreadMutex.step, hpc, some.injEq, reduceCtorEq] at hs hf hok <;> subst hs
    case lockLoad => exact hi.lockLoad hf
    case lockRecursion => exact hi.lockRecursion hf
    case lockSpin => exact hi.lockSpin hf hok
    case tryLoad => exact hi.tryLoad
    case tryRecursion => exact hi.tryRecursion hf hok
    case tryReload => exact hi.tryReload hf
    case tryExchange => exact hi.tryExchange
    case unlockOwner => exact hi.unlockOwner
    case unlockRecursions => exact hi.unlockRecursions hf
    case unlockWake => exact hi.goto trivial

/-- A wait that finds another word returns an error to a thread that did not have the mutex. -/
theorem Inv.not_good_lockSpin (hpc : s.pc t = .lockSpin value spinsRemain)
    (hno : ¬ (value ≠ -1 → spinsRemain = 1 → s.owner = value)) :
    ¬ Good (PthreadMutex.lockSpin s t value spinsRemain weakFails) := by
  have hf := hi.threads t
  rw [hpc] at hf
  simp only [Classical.not_imp] at hno
  obtain ⟨hv, hone, hne⟩ := hno
  intro hg
  have hret : PthreadMutex.lockSpin s t value spinsRemain weakFails = s.ret t .lock 1 := by
    rw [PthreadMutex.lockSpin, if_neg hv, if_neg (by omega), lockFutexWait, if_pos hne]
    rfl
  rw [hret] at hg
  have := hg.noError t 1 (by simp [St.ret, St.goto]) hf.2
  omega

/-- At the limit a trylock of the owner succeeds and is not counted. -/
theorem Inv.not_good_tryRecursion (hpc : s.pc t = .tryRecursion)
    (hno : s.recursions = intMax) : ¬ Good (PthreadMutex.tryRecursion s t) := by
  have ho : s.owner = t := by
    have := hi.threads t
    rwa [hpc] at this
  have hret : PthreadMutex.tryRecursion s t = (s.locked t).ret t .trylock 0 := by
    rw [PthreadMutex.tryRecursion, hno, if_neg (by decide), if_neg (Int.lt_irrefl _)]
  intro hg
  rw [hret] at hg
  have h1 := hi.released t ho
  have h2 := hg.released t ho
  simp only [St.ret, St.goto, St.locked, St.unlocksLeft, update_self] at h1 h2
  omega

theorem Inv.not_good (hno : ¬ Sound s a) (hs : PthreadMutex.step s a = some s') : ¬ Good s' := by
  cases a with
  | call t call => exact absurd trivial hno
  | wake t => exact absurd trivial hno
  | run t weakFails =>
    simp only [PthreadMutex.step] at hs
    simp only [Sound] at hno
    cases hpc : s.pc t with
    | lockSpin value spinsRemain =>
      simp only [hpc, some.injEq] at hs hno
      subst hs
      exact hi.not_good_lockSpin hpc hno
    | tryRecursion =>
      simp only [hpc, some.injEq, ne_eq, not_not] at hs hno
      subst hs
      exact hi.not_good_tryRecursion hpc hno
    | _ => simp [hpc] at hno

end

/-! ## Results -/

theorem pthread_mutex_right_iff (s : St) (h : Init s) (acts : List Act) :
    lts.Always Good s acts ↔ lts.Meets Sound s acts := by
  refine LTS.always_iff (fun _ hi => hi.good) (fun _ _ _ hi hok hs => hi.step hok hs)
    (fun _ _ _ hi hno hs => ?_) h.inv acts
  exact hi.not_good hno hs

def sampleSt : St :=
  ⟨pthreadMutexSig, -1, 0, fun _ => .out, fun _ => 0, fun _ => false⟩

theorem sampleSt_init : Init sampleSt := ⟨rfl, rfl, .inr rfl, fun _ => rfl, fun _ => rfl⟩

/-- A recursive mutex that is locked twice and unlocked once. -/
theorem pthread_mutex_right_sample : lts.Always Good sampleSt
    [.call 1 .lock, .run 1 false, .run 1 true, .run 1 false, .call 1 .lock, .run 1 false,
      .run 1 false, .call 1 .unlock, .run 1 false, .run 1 false] :=
  (pthread_mutex_right_iff sampleSt sampleSt_init _).2 <|
    .cons rfl trivial <| .cons rfl trivial <| .cons rfl (absurd rfl) <| .cons rfl (absurd rfl) <|
    .cons rfl trivial <| .cons rfl trivial <| .cons rfl trivial <| .cons rfl trivial <|
    .cons rfl trivial <| .cons rfl trivial trivial

/-- As long as the mutex is owned the loop reads the word once a round, to its last round. -/
theorem run_spin {acts : List Act} (n : Nat) (ho : s.owner ≠ -1)
    (hpc : s.pc t = .lockSpin s.owner (n + 1))
    (hr : lts.Run (s.goto t (.lockSpin s.owner 1)) acts s') :
    lts.Run s (List.replicate n (.run t false) ++ acts) s' := by
  induction n generalizing s with
  | zero =>
    have : s.goto t (.lockSpin s.owner 1) = s := by
      rw [St.goto, show Pc.lockSpin s.owner 1 = s.pc t from hpc.symm, update_eq_self]
    rwa [this] at hr
  | succ n ih =>
    have hstep : step s (.run t false) = some (s.goto t (.lockSpin s.owner (n + 1))) := by
      simp only [step, hpc, lockSpin, if_neg ho]
      rw [if_pos (by omega)]
      congr 3
      omega
    refine .cons hstep (ih ho ?_ ?_)
    · simp [St.goto]
    · simpa [St.goto] using hr

/-- Thread 2 finds the mutex owned in all its rounds, and thread 1 unlocks it before thread 2
waits. -/
theorem lock_returns_error : ∃ s, lts.Reachable s ∧
    s.pc 2 = .returned .lock 1 ∧ s.owned 2 = false ∧ s.owner = -1 := by
  have hrun : lts.Run sampleSt ([.call 1 .lock, .run 1 false, .run 1 false, .call 2 .lock,
      .run 2 false] ++ (List.replicate 999 (.run 2 false) ++ [.call 1 .unlock, .run 1 false,
      .run 1 false, .run 2 false])) _ :=
    .cons rfl <| .cons rfl <| .cons rfl <| .cons rfl <| .cons rfl <|
      run_spin 999 (by decide) rfl <| .cons rfl <| .cons rfl <| .cons rfl <| .cons rfl <| .nil _
  exact ⟨_, ⟨sampleSt, _, sampleSt_init, hrun⟩, rfl, rfl, rfl⟩

end Dgos.L5.PthreadMutex
