import Dgos.L1Data.DescAlloc

/-!
# Descriptors of a process (kernel/syscall/sys_fd.cc, kernel/lib/fileio.cc)

A process has a bitmap of the descriptors that are handed out and an array from descriptors to
files; the kernel has one table of files with reference counts and a list of free entries. The
system calls move all three. A descriptor is valid when its entry of the array is not negative.

A call is one step. The file system answers: whether the path can be read from the process,
whether there is a file system for it, what its `openat` returns, and what `release` returns.
A failed assertion stops the kernel, and so does a write outside of the array.

A new process has all entries of the array at 0, which is a file: `entry_t` has no value for a
descriptor that is not open, and no call ever stores a negative one.

`others` are the references to files that other processes and the kernel itself have.

Results:
* `close_not_right`: no `close` of a valid descriptor does what it should, from any state.
* `fds_never_right`: there is no sequence of calls along which the counts are right.
-/
namespace Dgos.L4.SysFd

open L1

inductive Err
  | assert
  | outOfBounds
  deriving DecidableEq, Repr

/-! ## State -/

/-- `fd_table_t::entry_t`. Both fields have 16 bits.
mirrors process.h:20-62 -/
structure Entry where
  id : Int
  flags : Int

def toInt16 (n : Int) : Int := n.bmod (2 ^ 16)

/-- mirrors process.h:36-40 -/
def Entry.set (id flags : Int) : Entry := ⟨toInt16 id, toInt16 flags⟩

/-- The assignment of a file keeps the flags.
mirrors process.h:47-51 -/
def Entry.assign (e : Entry) (id : Int) : Entry := { e with id := toInt16 id }

/-- An entry of the table of files. `next_free` is only set in a free entry.
mirrors fileio.cc:27-57 -/
structure FileTab where
  fi : Option Nat := none
  fs : Option Nat := none
  refcount : Nat := 0
  nextFree : Option Nat := none

structure St where
  ids : Nat → Entry
  descAlloc : DescAlloc.St
  cwd : Int
  fileTable : List FileTab
  /-- `file_table_ff`, `none` for -1 -/
  fileTableFf : Option Nat

def maxFile : Nat := 4096

def maxFiles : Nat := 1000

/-! ## The table of files -/

/-- mirrors fileio.cc:82-95 -/
def fileFhFromId (s : St) (id : Int) : Except Err (Option Nat) :=
  if 0 ≤ id then
    match s.fileTable[id.toNat]? with
    | some item => if 0 < item.refcount then .ok (some id.toNat) else .error .assert
    | none => .ok none
  else .ok none

/-- mirrors fileio.cc:126-153 -/
def fileNewFiletab (s : St) : Except Err (Option Nat × St) :=
  match s.fileTableFf with
  | some ff =>
    match s.fileTable[ff]? with
    | some item =>
      if item.refcount = 0 then
        .ok (some ff, { s with
          fileTable := s.fileTable.set ff ⟨none, none, 1, none⟩
          fileTableFf := item.nextFree })
      else .error .assert
    | none => .error .outOfBounds
  | none =>
    if s.fileTable.length < maxFiles then
      .ok (some s.fileTable.length, { s with fileTable := s.fileTable ++ [⟨none, none, 1, none⟩] })
    else .ok (none, s)

/-- Also says whether the last reference is gone.
mirrors fileio.cc:155-168 -/
def fileDelFiletab (s : St) (index : Nat) : Except Err (Bool × St) :=
  match s.fileTable[index]? with
  | some item =>
    if item.refcount = 0 then .error .assert
    else if item.refcount = 1 then
      .ok (true, { s with
        fileTable := s.fileTable.set index { item with refcount := 0, nextFree := s.fileTableFf }
        fileTableFf := some index })
    else
      .ok (false, { s with
        fileTable := s.fileTable.set index { item with refcount := item.refcount - 1 } })
  | none => .error .outOfBounds

/-- mirrors fileio.cc:170-180 -/
def fileRefFiletab (s : St) (id : Int) : Except Err (Bool × St) :=
  if 0 ≤ id then
    match s.fileTable[id.toNat]? with
    | some item =>
      if 0 < item.refcount then
        .ok (true, { s with
          fileTable := s.fileTable.set id.toNat { item with refcount := item.refcount + 1 } })
      else .error .assert
    | none => .ok (false, s)
  else .ok (false, s)

/-- What the environment answers to an `openat`. -/
structure Opening where
  /-- `user_str_t::err_int` when the path cannot be read -/
  pathErr : Option Int
  /-- the file system for the path -/
  fs : Option Nat
  /-- what its `openat` returns, and the file -/
  status : Int
  fi : Nat

def enoent : Int := 67
def enfile : Int := 63
def ebadf : Int := 9
def emfile : Int := 55
def maxErrno : Int := 124

/-- mirrors fileio.cc:202-236 -/
def fileOpenat (s : St) (dirid : Int) (o : Opening) : Except Err (Int × St) :=
  match o.fs with
  | none => .ok (-enoent, s)
  | some fs => do
    let (fh, s) ← fileNewFiletab s
    match fh with
    | none => return (-enfile, s)
    | some fh =>
      let _ ← fileFhFromId s dirid
      if o.status < 0 then
        let (_, s) ← fileDelFiletab s fh
        return (o.status, s)
      else
        return ((fh : Int), { s with
          fileTable := s.fileTable.modify fh fun item =>
            { item with fi := some o.fi, fs := some fs } })

/-- mirrors fileio.cc:238-258 -/
def fileClose (s : St) (id release : Int) : Except Err (Int × St) := do
  match ← fileFhFromId s id with
  | none => return (-ebadf, s)
  | some fh =>
    let (last, s) ← fileDelFiletab s fh
    return (if last then release else 0, s)

/-! ## The calls -/

/-- mirrors sys_fd.cc:897-901 -/
def err (negerr : Int) : Except Err Int :=
  if negerr < 0 ∧ -negerr < maxErrno then .ok negerr else .error .assert

/-- mirrors process.h:173-178 -/
def validFd (s : St) (fd : Int) : Bool := 0 ≤ fd ∧ fd < maxFile ∧ 0 ≤ (s.ids fd.toNat).id

/-- mirrors process.h:180-183 -/
def fdToId (s : St) (fd : Int) : Int := if validFd s fd then (s.ids fd.toNat).id else -1

def atFdcwd : Int := -100

/-- mirrors process.h:185-191 -/
def dirfdToId (s : St) (dirfd : Int) : Int := if dirfd = atFdcwd then s.cwd else fdToId s dirfd

/-- An assertion of the allocator of descriptors is one of the kernel. -/
def alloced {α : Type} : Except DescAlloc.Err α → Except Err α
  | .ok a => .ok a
  | .error .assert => .error .assert

def allocFd (s : St) : Except Err (Int × St) := do
  let (fd, a) ← alloced (DescAlloc.alloc s.descAlloc)
  return (fd, { s with descAlloc := a })

def freeFd (s : St) (fd : Int) : Except Err St := do
  let a ← alloced (DescAlloc.free s.descAlloc fd)
  return { s with descAlloc := a }

def takeFd (s : St) (fd : Int) : Except Err (Bool × St) := do
  let (taken, a) ← alloced (DescAlloc.take s.descAlloc fd)
  return (taken, { s with descAlloc := a })

/-- A write to the array of entries. -/
def store (s : St) (fd : Int) (f : Entry → Entry) : Except Err St :=
  if 0 ≤ fd ∧ fd < maxFile then
    .ok { s with ids := Function.update s.ids fd.toNat (f (s.ids fd.toNat)) }
  else .error .outOfBounds

/-- mirrors sys_fd.cc:79-92, 159-171 -/
def sysClose (s : St) (fd release : Int) : Except Err (Int × St) :=
  let id := if fd < 0 then -ebadf else if fdToId s fd < 0 then -ebadf else fdToId s fd
  if id < 0 then .ok (-ebadf, s)
  else do
    let (status, s) ← fileClose s id release
    if status = 0 then return (0, s)
    else return (← err status, s)

/-- mirrors sys_fd.cc:371-387 -/
def sysDup (s : St) (oldfd : Int) : Except Err (Int × St) := do
  let id := fdToId s oldfd
  let (newfd, s) ← allocFd s
  let (refd, s) ← fileRefFiletab s id
  if refd then
    let s ← store s newfd (·.assign id)
    return (newfd, s)
  else
    let s ← freeFd s newfd
    return (-ebadf, s)

/-- mirrors sys_fd.cc:402-409 -/
def dup3End (s : St) (id newfd flags : Int) : Except Err (Int × St) := do
  let (refd, s) ← fileRefFiletab s id
  if refd then
    let s ← store s newfd fun _ => .set id flags
    return (newfd, s)
  else
    let s ← freeFd s newfd
    return (-ebadf, s)

/-- mirrors sys_fd.cc:389-410 -/
def sysDup3 (s : St) (oldfd newfd flags release : Int) : Except Err (Int × St) := do
  let id := fdToId s oldfd
  let newid := fdToId s newfd
  if 0 ≤ newid then
    let (_, s) ← fileClose s newid release
    dup3End s id newfd flags
  else
    let (taken, s) ← takeFd s newfd
    if taken then dup3End s id newfd flags else return (-emfile, s)

/-- mirrors sys_fd.cc:412-415 -/
def sysDup2 (s : St) (oldfd newfd release : Int) : Except Err (Int × St) :=
  sysDup3 s oldfd newfd 0 release

/-- mirrors sys_fd.cc:445-470 -/
def sysOpenat (s : St) (dirfd flags : Int) (o : Opening) : Except Err (Int × St) :=
  match o.pathErr with
  | some e => .ok (e, s)
  | none => do
    let (fd, s) ← allocFd s
    if fd < 0 then return (-emfile, s)
    else
      let (id, s) ← fileOpenat s (dirfdToId s dirfd) o
      if id < 0 then
        let s ← freeFd s fd
        return (← err id, s)
      else
        let s ← store s fd fun _ => .set id flags
        return (fd, s)

inductive Call where
  | openat (dirfd flags : Int) (o : Opening)
  | dup (oldfd : Int)
  | dup2 (oldfd newfd release : Int)
  | dup3 (oldfd newfd flags release : Int)
  | close (fd release : Int)

def exec (s : St) : Call → Except Err (Int × St)
  | .openat dirfd flags o => sysOpenat s dirfd flags o
  | .dup oldfd => sysDup s oldfd
  | .dup2 oldfd newfd release => sysDup2 s oldfd newfd release
  | .dup3 oldfd newfd flags release => sysDup3 s oldfd newfd flags release
  | .close fd release => sysClose s fd release

/-- The returned values of a sequence of calls, and the state behind it. -/
def run (s : St) : List Call → Except Err (List Int × St)
  | [] => .ok ([], s)
  | c :: cs => do
    let (r, s) ← exec s c
    let (rs, s) ← run s cs
    return (r :: rs, s)

/-- A process when its program starts: descriptors 0 and 1 have been opened, 2 only taken.
mirrors process.cc:585-597 -/
structure Start (others : Nat → Nat) (s : St) : Prop where
  ids : ∀ fd, s.ids fd = if fd = 1 then .set 1 0 else ⟨0, 0⟩
  taken : DescAlloc.takeList .zero [0, 1, 2] = .ok (true, s.descAlloc)
  cwd : s.cwd = -1
  conin : ∃ item, s.fileTable[0]? = some item ∧ item.refcount = others 0 + 1
  conout : ∃ item, s.fileTable[1]? = some item ∧ item.refcount = others 1 + 1
  rest : ∀ id item, 2 ≤ id → s.fileTable[id]? = some item → item.refcount = others id
  size : s.fileTable.length ≤ maxFiles

/-! ## What the calls are for -/

/-- The descriptor is marked in the bitmap. -/
def handedOut (s : St) (fd : Nat) : Bool :=
  (s.descAlloc.level1 (Fin.ofNat 64 (fd >>> 6))).getLsbD (fd &&& 63)

/-- How many of the descriptors that count refer to a file. -/
def refs (counts : Nat → Bool) (s : St) (id : Nat) : Nat :=
  ((Finset.range maxFile).filter fun fd => counts fd = true ∧ (s.ids fd).id = id).card

/-- The count of every open file is right. -/
def Good (others : Nat → Nat) (counts : St → Nat → Bool) (s : St) : Prop :=
  ∀ id item, s.fileTable[id]? = some item → 0 < item.refcount →
    item.refcount = others id + refs (counts s) s id

/-- The descriptors that count are the valid ones. -/
def byEntry (s : St) (fd : Nat) : Bool := validFd s fd

/-- Only those that have been handed out. -/
def byBitmap (s : St) (fd : Nat) : Bool := validFd s fd && handedOut s fd

def refcount (s : St) (id : Nat) : Nat := (s.fileTable[id]?.map FileTab.refcount).getD 0

/-- The descriptor a call closes or replaces. -/
def Call.target : Call → Option Int
  | .dup2 _ newfd _ => some newfd
  | .dup3 _ newfd _ _ => some newfd
  | .close fd _ => some fd
  | _ => none

/-- The descriptor a call duplicates. -/
def Call.source : Call → Option Int
  | .dup oldfd => some oldfd
  | .dup2 oldfd _ _ => some oldfd
  | .dup3 oldfd _ _ _ => some oldfd
  | _ => none

/-- What a call that returns `r` may do. -/
structure Answers (s : St) (c : Call) (r : Int) (s' : St) : Prop where
  kept : ∀ fd : Nat, validFd s fd = true → c.target ≠ some (fd : Int) → s'.ids fd = s.ids fd
  duplicated : ∀ oldfd, c.source = some oldfd → 0 ≤ r →
    validFd s oldfd = true ∧ (s'.ids r.toNat).id = (s.ids oldfd.toNat).id
  closed : ∀ fd release, c = .close fd release → r = 0 →
    validFd s' fd = false ∧ handedOut s' fd.toNat = false
  rejected : ∀ fd release, c = .close fd release → validFd s fd = false → r = -ebadf
  failed : r < 0 → s'.ids = s.ids ∧ s'.descAlloc = s.descAlloc ∧
    ∀ id, refcount s' id = refcount s id

/-- The counts are right before and after every call, and every call does what it may. -/
def Right (others : Nat → Nat) (counts : St → Nat → Bool) : St → List Call → Prop
  | s, [] => Good others counts s
  | s, c :: cs => Good others counts s ∧ ∃ r s', exec s c = .ok (r, s') ∧ Answers s c r s' ∧
      Right others counts s' cs

variable {counts : St → Nat → Bool}

theorem Right.good {others : Nat → Nat} {s : St} {cs : List Call}
    (h : Right others counts s cs) : Good others counts s := by
  cases cs with
  | nil => exact h
  | cons c cs => exact h.1

/-! ## What `close` keeps -/

section Calls

variable {s : St}

/-- Every outcome that is not a stop leaves the array of entries. -/
abbrev KeepsIds {α : Type} (s : St) (e : Except Err (α × St)) : Prop :=
  Ensures (fun _ => True) e fun r => r.2.ids = s.ids

theorem fileDelFiletab_ids (index : Nat) : KeepsIds s (fileDelFiletab s index) := by
  unfold fileDelFiletab
  split
  · split
    · trivial
    · split <;> exact rfl
  · trivial

theorem fileClose_ids (id release : Int) : KeepsIds s (fileClose s id release) := by
  unfold fileClose
  cases fileFhFromId s id with
  | error x => trivial
  | ok fh =>
    cases fh with
    | none => exact rfl
    | some fh => exact (fileDelFiletab_ids fh).bind fun r hr => hr

theorem sysClose_ids (fd release : Int) : KeepsIds s (sysClose s fd release) := by
  unfold sysClose
  generalize (if fd < 0 then -ebadf else if fdToId s fd < 0 then -ebadf else fdToId s fd) = id
  simp only
  split
  · exact rfl
  refine (fileClose_ids id release).bind ?_
  rintro ⟨status, t⟩ ht
  split
  · exact ht
  · unfold err
    split
    · exact ht
    · trivial

end Calls

/-! ## Runs -/

section Runs

variable {others : Nat → Nat} {s : St} {fd : Nat}

/-- A `close` of a valid descriptor leaves it valid, from any state. -/
theorem close_not_right {s' : St} {fd release : Int} (hv : validFd s fd = true)
    (hs : exec s (.close fd release) = .ok (0, s')) : ¬ Answers s (.close fd release) 0 s' := by
  intro h
  have hk := (sysClose_ids fd release).of_ok hs
  have hclosed := (h.closed fd release rfl rfl).1
  have hsame : validFd s' fd = validFd s fd := by rw [validFd, validFd, hk]
  rw [hsame, hv] at hclosed
  cases hclosed

/-- Descriptors 0 and 2 of a new process refer to one file, which is counted once. -/
theorem Start.not_good (h : Start others s) (h0 : counts s 0 = true)
    (h2 : counts s 2 = true) : ¬ Good others counts s := by
  intro hg
  obtain ⟨item, hitem, hcount⟩ := h.conin
  have href := hg 0 item hitem (by omega)
  have htwo : 1 < refs (counts s) s 0 := by
    refine Finset.one_lt_card.2 ⟨0, ?_, 2, ?_, by decide⟩
    · simp [h0, h.ids, maxFile]
    · simp [h2, h.ids, maxFile]
  omega

theorem Start.byEntry (h : Start others s) (hfd : fd < maxFile) : byEntry s fd = true := by
  simp only [SysFd.byEntry, validFd, decide_eq_true_eq]
  refine ⟨by omega, by omega, ?_⟩
  rw [h.ids]
  split <;> decide

theorem Start.handedOut (h : Start others s) (hfd : fd < 3) : handedOut s fd = true := by
  have hword : (DescAlloc.takeList .zero [0, 1, 2]).map (fun r => r.2.level1 0) = .ok 7#64 := by
    decide
  rw [h.taken] at hword
  have hword : s.descAlloc.level1 0 = 7#64 := Except.ok.inj hword
  have hbits : ∀ fd < 3, Fin.ofNat 64 (fd >>> 6) = 0 ∧ (7#64).getLsbD (fd &&& 63) = true := by
    decide
  rw [SysFd.handedOut, (hbits fd hfd).1, hword]
  exact (hbits fd hfd).2

/-- Whichever descriptors count, those whose entry is a file or only those that have been handed
out, there is no sequence of calls along which the counts and the answers are right. -/
theorem fds_never_right (h : Start others s) (calls : List Call) :
    ¬ Right others SysFd.byEntry s calls ∧ ¬ Right others byBitmap s calls := by
  have hentry : ∀ fd < 3, SysFd.byEntry s fd = true := fun fd hfd =>
    h.byEntry (lt_trans hfd (by decide))
  have hbitmap : ∀ fd < 3, byBitmap s fd = true := fun fd hfd => by
    rw [byBitmap, h.handedOut hfd, Bool.and_true]
    exact hentry fd hfd
  exact ⟨fun hr => h.not_good (hentry 0 (by decide)) (hentry 2 (by decide)) hr.good,
    fun hr => h.not_good (hbitmap 0 (by decide)) (hbitmap 2 (by decide)) hr.good⟩

/-- The program that is run has its own file open. -/
def sampleOthers (id : Nat) : Nat := if id = 2 then 1 else 0

def sampleSt : St where
  ids fd := if fd = 1 then .set 1 0 else ⟨0, 0⟩
  descAlloc := ((DescAlloc.St.zero.mark 0 0).mark 0 1).mark 0 2
  cwd := -1
  fileTable := [⟨some 0, some 0, 1, none⟩, ⟨some 1, some 0, 1, none⟩, ⟨some 2, some 1, 1, none⟩]
  fileTableFf := none

theorem sampleSt_start : Start sampleOthers sampleSt where
  ids _ := rfl
  taken := rfl
  cwd := rfl
  conin := ⟨_, rfl, rfl⟩
  conout := ⟨_, rfl, rfl⟩
  rest id item hid hitem := by
    have hlt : id < 3 := (List.getElem?_eq_some_iff.1 hitem).1
    obtain rfl : id = 2 := by omega
    cases hitem
    rfl
  size := by decide

theorem fds_never_right_sample :
    Start sampleOthers sampleSt ∧ ¬ Right sampleOthers SysFd.byEntry sampleSt [.dup 1] :=
  ⟨sampleSt_start, (fds_never_right sampleSt_start [.dup 1]).1⟩

/-- Descriptor 3 is closed twice. In between descriptor 4 was opened and got the same entry of
the table of files; the second `close` succeeds and closes that file. -/
theorem close_twice : Start sampleOthers sampleSt ∧
    (run sampleSt [.openat atFdcwd 0 ⟨none, some 1, 0, 10⟩, .close 3 0,
        .openat atFdcwd 0 ⟨none, some 1, 0, 11⟩]).map
      (fun r => (r.1, (r.2.ids 4).id, refcount r.2 3)) = .ok ([3, 0, 4], 3, 1) ∧
    (run sampleSt [.openat atFdcwd 0 ⟨none, some 1, 0, 10⟩, .close 3 0,
        .openat atFdcwd 0 ⟨none, some 1, 0, 11⟩, .close 3 0]).map
      (fun r => (r.1, (r.2.ids 4).id, refcount r.2 3)) = .ok ([3, 0, 4, 0], 3, 0) :=
  ⟨sampleSt_start, by decide +kernel, by decide +kernel⟩

end Runs

end Dgos.L4.SysFd
