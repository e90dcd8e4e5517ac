import Dgos.Core.Lts

/-!
# Software breakpoints of the GDB stub (kernel/arch/x86_64/gdbstub.cc)

A software breakpoint replaces a byte of the target by the opcode `0xCC` and keeps the byte it
replaced. Reads and writes of the debugger go to the kept byte where there is a breakpoint. A
breakpoint is found by its address and page directory; a second one at the same place with
another kind is a breakpoint of its own, and what it keeps is the opcode.

The target is stopped: `translate` is what the page directories map, `present` what `mpresent`
says in the stub's own mapping, `writable` where a store does not fault. `logical` is the
memory as it would be without breakpoints. A write of several bytes is one step for each byte,
up to the first that faults (`handleMemopWrite_run`).

Results:
* `breakpoints_right_iff`: along a run the debugger reads the logical memory everywhere, and
  without breakpoints the memory is the logical memory, if and only if no step goes through one
  of several addresses of a byte in a way the others can see, and no breakpoint is removed
  that has another one of its address behind it that keeps another byte.
* `opcode_read`: after two breakpoints of different kinds and the removal of the first the
  debugger reads the opcode.
-/
namespace Dgos.L4.GdbBreakpoint

open List Function Option Prod Bool

abbrev Addr := BitVec 64

/-! ## State -/

/-- mirrors gdbstub.cc:154-188 -/
structure Breakpoint where
  addr : Addr
  pageDir : Nat
  kind : UInt8
  origData : UInt8
  active : Bool
  deriving DecidableEq, Repr

open Breakpoint

structure Env where
  /-- the byte of physical memory behind an address -/
  translate : Nat → Addr → Option Nat
  present : Addr → Bool
  writable : Nat → Addr → Bool

structure St where
  bpSw : List Breakpoint
  mem : Nat → UInt8
  logical : Nat → UInt8

structure Init (s : St) : Prop where
  bpSw : s.bpSw = []
  mem : s.mem = s.logical

def x86BreakpointOpcode : UInt8 := 0xcc

/-! ## The code -/

/-- mirrors gdbstub.cc:2116-2120 -/
def bpMatches (addr : Addr) (pageDir : Nat) (kind : UInt8) (item : Breakpoint) : Bool :=
  item.addr == addr && (kind == 0 || item.kind == kind) && (pageDir == 0 || item.pageDir == pageDir)

/-- mirrors gdbstub.cc:2113-2121 -/
def breakpointFind (list : List Breakpoint) (addr : Addr) (pageDir : Nat) (kind : UInt8) :
    Option Breakpoint :=
  list.find? (bpMatches addr pageDir kind)

/-- The old byte and the memory, or `none` in place of them when the address is not present.
A fault is `none`.
mirrors gdbstub.cc:2136-2159 -/
def breakpointWriteTarget (e : Env) (mem : Nat → UInt8) (addr : Addr) (value : UInt8)
    (pageDir : Nat) : Option (Option (UInt8 × (Nat → UInt8))) :=
  if e.present addr then
    (e.translate pageDir addr).map fun p => some (mem p, update mem p value)
  else some none

/-- mirrors gdbstub.cc:2206-2225 -/
def breakpointToggle (e : Env) (mem : Nat → UInt8) (bp : Breakpoint) (activate : Bool) :
    Option (Option (Breakpoint × (Nat → UInt8))) :=
  if activate && !bp.active then do
    match ← breakpointWriteTarget e mem bp.addr x86BreakpointOpcode bp.pageDir with
    | none => some none
    | some (old, mem) => some (some ({ bp with origData := old, active := true }, mem))
  else if !activate && bp.active then do
    match ← breakpointWriteTarget e mem bp.addr bp.origData bp.pageDir with
    | none => some none
    | some (old, mem) =>
      -- the assertion
      if old = x86BreakpointOpcode then some (some ({ bp with active := false }, mem)) else none
  else some (some (bp, mem))

/-- mirrors gdbstub.cc:2161-2189 -/
def breakpointAdd (e : Env) (s : St) (addr : Addr) (pageDir : Nat) (kind : UInt8) :
    Option (Bool × St) :=
  match breakpointFind s.bpSw addr pageDir kind with
  | some _ => some (true, s)
  | none => do
    match ← breakpointToggle e s.mem ⟨addr, pageDir, kind, 0, false⟩ true with
    | none => some (false, s)
    | some (bp, mem) => some (true, { s with bpSw := s.bpSw ++ [bp], mem := mem })

/-- mirrors gdbstub.cc:2191-2204 -/
def breakpointDel (e : Env) (s : St) (addr : Addr) (pageDir : Nat) (kind : UInt8) :
    Option (Bool × St) :=
  match breakpointFind s.bpSw addr pageDir kind with
  | none => some (true, s)
  | some bp => do
    match ← breakpointToggle e s.mem bp false with
    | none => some (false, s)
    | some (_, mem) =>
      some (true, { s with bpSw := s.bpSw.eraseP (bpMatches addr pageDir kind), mem := mem })

/-- mirrors gdbstub.cc:2233-2242 -/
def breakpointGetByte (s : St) (addr : Addr) (pageDir : Nat) : Option UInt8 :=
  match breakpointFind s.bpSw addr pageDir 0 with
  | some bp => if bp.active then some bp.origData else none
  | none => none

/-- The first breakpoint that is found gets another byte to keep. -/
def keepByte (p : Breakpoint → Bool) (value : UInt8) : List Breakpoint → List Breakpoint
  | [] => []
  | bp :: list =>
    if p bp then { bp with origData := value } :: list else bp :: keepByte p value list

/-- mirrors gdbstub.cc:2244-2256 -/
def breakpointSetByte (s : St) (addr : Addr) (pageDir : Nat) (value : UInt8) : Option St :=
  match breakpointFind s.bpSw addr pageDir 0 with
  | some bp =>
    if bp.active then some { s with bpSw := keepByte (bpMatches addr pageDir 0) value s.bpSw }
    else none
  | none => none

/-- What is read at an address, `none` for a fault.
mirrors gdbstub.cc:1046-1056 -/
def readByte (e : Env) (s : St) (pageDir : Nat) (addr : Addr) : Option UInt8 :=
  match breakpointGetByte s addr pageDir with
  | some v => some v
  | none => (e.translate pageDir addr).map s.mem

/-- The bytes up to the first that faults.
mirrors gdbstub.cc:1042-1060 -/
def handleMemopRead (e : Env) (s : St) (pageDir : Nat) (addr : Addr) : Nat → List UInt8
  | 0 => []
  | size + 1 =>
    match readByte e s pageDir addr with
    | none => []
    | some v => v :: handleMemopRead e s pageDir (addr + 1) size

/-- One byte of a write, with its effect on the logical memory.
mirrors gdbstub.cc:1099-1104 -/
def writeByte (e : Env) (s : St) (pageDir : Nat) (addr : Addr) (value : UInt8) : Option St := do
  let p ← e.translate pageDir addr
  match breakpointSetByte s addr pageDir value with
  | some s' => return { s' with logical := update s.logical p value }
  | none =>
    if e.writable pageDir addr then
      return { s with
        mem := update s.mem p value
        logical := update s.logical p value }
    else none

/-- mirrors gdbstub.cc:1098-1106 -/
def handleMemopWrite (e : Env) (s : St) (pageDir : Nat) (addr : Addr) : List UInt8 → Bool × St
  | [] => (true, s)
  | value :: values =>
    match writeByte e s pageDir addr value with
    | none => (false, s)
    | some s' => handleMemopWrite e s' pageDir (addr + 1) values

/-! ## Steps -/

/-- `pageDir` is the `cr3` of the selected processor. -/
inductive Act where
  | add (pageDir : Nat) (addr : Addr) (kind : UInt8)
  | del (pageDir : Nat) (addr : Addr) (kind : UInt8)
  | write (pageDir : Nat) (addr : Addr) (value : UInt8)

def step (e : Env) (s : St) : Act → Option St
  | .add pageDir addr kind =>
    if pageDir = 0 then none else (breakpointAdd e s addr pageDir kind).map Prod.snd
  | .del pageDir addr kind =>
    if pageDir = 0 then none else (breakpointDel e s addr pageDir kind).map Prod.snd
  | .write pageDir addr value => if pageDir = 0 then none else writeByte e s pageDir addr value

def lts (e : Env) : LTS St Act where
  init := Init
  step s a s' := step e s a = some s'

/-- A write of several bytes is a run. -/
theorem handleMemopWrite_run (e : Env) {pageDir : Nat} (hp : pageDir ≠ 0) (values : List UInt8)
    (s : St) (addr : Addr) : ∃ acts, (∀ a ∈ acts, ∃ addr' value, a = .write pageDir addr' value) ∧
      (lts e).Run s acts (handleMemopWrite e s pageDir addr values).2 := by
  induction values generalizing s addr with
  | nil => exact ⟨[], by simp, .nil s⟩
  | cons value values ih =>
    rw [handleMemopWrite]
    split
    · exact ⟨[], by simp, .nil s⟩
    rename_i s' hs
    obtain ⟨acts, hacts, hrun⟩ := ih s' (addr + 1)
    refine ⟨.write pageDir addr value :: acts, ?_, .cons ?_ hrun⟩
    · rintro a (_ | ⟨_, ha⟩)
      · exact ⟨addr, value, rfl⟩
      · exact hacts a ha
    · simpa [lts, step, hp] using hs

/-! ## What breakpoints are for -/

/-- The logical memory at an address, up to the first byte that faults. -/
def logicalBytes (e : Env) (s : St) (pageDir : Nat) (addr : Addr) : Nat → List UInt8
  | 0 => []
  | size + 1 =>
    match e.translate pageDir addr with
    | none => []
    | some p => s.logical p :: logicalBytes e s pageDir (addr + 1) size

structure Good (e : Env) (s : St) : Prop where
  reads : ∀ pageDir addr size, pageDir ≠ 0 →
    handleMemopRead e s pageDir addr size = logicalBytes e s pageDir addr size
  removed : s.bpSw = [] → s.mem = s.logical

/-- The breakpoints at an address. -/
def here (list : List Breakpoint) (pageDir : Nat) (addr : Addr) : List Breakpoint :=
  list.filter fun b => b.addr == addr && b.pageDir == pageDir

/-- Another address of the same byte. -/
def Alias (e : Env) (pageDir : Nat) (addr : Addr) (pageDir' : Nat) (addr' : Addr) : Prop :=
  pageDir' ≠ 0 ∧ (pageDir', addr') ≠ (pageDir, addr) ∧
    e.translate pageDir' addr' = e.translate pageDir addr

/-- What is asked of a new breakpoint: the byte is the opcode already, or it cannot be read
through another address. -/
def AddSound (e : Env) (s : St) (pageDir : Nat) (addr : Addr) : Prop :=
  (e.translate pageDir addr).map s.mem = some x86BreakpointOpcode ∨
    ∀ pageDir' addr', Alias e pageDir addr pageDir' addr' → here s.bpSw pageDir' addr' ≠ []

/-- What is asked of the removal of `bp`: the byte it puts back cannot be read through another
address, and the next one at its address keeps the same byte. -/
def DelSound (e : Env) (s : St) (pageDir : Nat) (addr : Addr) (bp : Breakpoint) : Prop :=
  (bp.origData = x86BreakpointOpcode ∨
    ∀ pageDir' addr', Alias e pageDir addr pageDir' addr' → here s.bpSw pageDir' addr' ≠ []) ∧
  (breakpointFind s.bpSw addr pageDir 0 = some bp →
    ∀ next, (here s.bpSw pageDir addr).tail.head? = some next → next.origData = bp.origData)

/-- What is asked of a write: it changes nothing, or no other address of the byte is involved
with a breakpoint. -/
def WriteSound (e : Env) (s : St) (pageDir : Nat) (addr : Addr) (value : UInt8) : Prop :=
  readByte e s pageDir addr = some value ∨ ∀ pageDir' addr', Alias e pageDir addr pageDir' addr' →
      here s.bpSw pageDir addr = [] ∧ here s.bpSw pageDir' addr' = []

/-- Nothing is asked of an insertion or a removal that changes nothing. -/
def Sound (e : Env) (s : St) : Act → Prop
  | .add pageDir addr kind =>
    breakpointFind s.bpSw addr pageDir kind = none → e.present addr = true →
      AddSound e s pageDir addr
  | .del pageDir addr kind =>
    ∀ bp, breakpointFind s.bpSw addr pageDir kind = some bp → e.present addr = true →
      DelSound e s pageDir addr bp
  | .write pageDir addr value => WriteSound e s pageDir addr value

/-! ## The list of breakpoints -/

variable {e : Env} {s s' : St} {pageDir pageDir' p p' : Nat} {addr addr' : Addr}
  {kind value : UInt8} {bp : Breakpoint} {list : List Breakpoint}

section

variable (hp : pageDir ≠ 0)
include hp

theorem bpMatches_eq (kind : UInt8) (b : Breakpoint) : bpMatches addr pageDir kind b =
      ((b.addr == addr && b.pageDir == pageDir) && (kind == 0 || b.kind == kind)) := by
  rw [bpMatches, beq_eq_false_iff_ne.2 hp, Bool.false_or, Bool.and_right_comm]

theorem breakpointFind_eq (kind : UInt8) : breakpointFind list addr pageDir kind =
      (here list pageDir addr).find? fun b => kind == 0 || b.kind == kind := by
  rw [here, find?_filter, breakpointFind]
  congr 1
  funext b
  rw [Bool.eq_iff_iff, bpMatches_eq hp]
  simp

theorem breakpointFind_zero :
    breakpointFind list addr pageDir 0 = (here list pageDir addr).head? := by
  rw [breakpointFind_eq hp]
  cases here list pageDir addr <;> simp

theorem here_eraseP_ne (kind : UInt8) (hne : (pageDir', addr') ≠ (pageDir, addr)) :
    here (list.eraseP (bpMatches addr pageDir kind)) pageDir' addr' = here list pageDir' addr' := by
  induction list with
  | nil => rfl
  | cons b list ih =>
    by_cases hb : bpMatches addr pageDir kind b = true
    · rw [eraseP_cons_of_pos hb, here, here]
      simp only [bpMatches_eq hp, and_eq_true, beq_iff_eq] at hb
      grind
    · rw [eraseP_cons_of_neg hb]
      simp only [here, filter_cons] at ih ⊢
      rw [ih]

theorem here_eraseP_self (kind : UInt8) :
    here (list.eraseP (bpMatches addr pageDir kind)) pageDir addr =
      (here list pageDir addr).eraseP fun b => kind == 0 || b.kind == kind := by
  rw [here, here, eraseP_filter]
  congr 2
  funext b
  rw [bpMatches_eq hp, Bool.and_comm]

theorem here_keepByte_ne (value : UInt8) (hne : (pageDir', addr') ≠ (pageDir, addr)) :
    here (keepByte (bpMatches addr pageDir 0) value list) pageDir' addr' =
      here list pageDir' addr' := by
  induction list with
  | nil => rfl
  | cons b list ih =>
    rw [keepByte]
    split_ifs with hb
    · simp only [bpMatches_eq hp, and_eq_true, beq_iff_eq] at hb
      rw [here, here]
      grind
    · simp only [here, filter_cons] at ih ⊢
      rw [ih]

theorem here_keepByte_self (value : UInt8) :
    (here (keepByte (bpMatches addr pageDir 0) value list) pageDir addr).head?.map origData =
      (here list pageDir addr).head?.map fun _ => value := by
  induction list with
  | nil => rfl
  | cons b list ih =>
    rw [keepByte, bpMatches_eq hp, beq_self_eq_true, Bool.true_or, Bool.and_true]
    cases h : b.addr == addr && b.pageDir == pageDir with
    | true => simp [here, h]
    | false =>
      simp only [here, filter_cons, h, false_eq_true, if_false] at ⊢
      exact ih

end

/-- What holds of the places of all breakpoints still does. -/
theorem forall_keepByte {p : Breakpoint → Bool} {value : UInt8} {P : Addr × Nat × Bool → Prop} :
    (∀ b ∈ keepByte p value list, P (b.addr, b.pageDir, b.active)) ↔
      ∀ b ∈ list, P (b.addr, b.pageDir, b.active) := by
  induction list with
  | nil => simp [keepByte]
  | cons b list ih =>
    rw [keepByte]
    split
    · simp
    · simp [ih]

theorem mem_here {b : Breakpoint} :
    b ∈ here list pageDir addr ↔ b ∈ list ∧ b.addr = addr ∧ b.pageDir = pageDir := by
  simp [here]

/-! ## Invariant -/

/-- What the debugger reads at an address of the byte `p`. -/
def shown (s : St) (pageDir : Nat) (addr : Addr) (p : Nat) : UInt8 :=
  ((here s.bpSw pageDir addr).head?.map Breakpoint.origData).getD (s.mem p)

/-- Every address shows the logical memory. -/
def Shows (e : Env) (s : St) : Prop :=
  ∀ pageDir addr p, pageDir ≠ 0 → e.translate pageDir addr = some p →
    shown s pageDir addr p = s.logical p

structure Inv (e : Env) (s : St) : Prop where
  active : ∀ b ∈ s.bpSw, b.active = true ∧ b.pageDir ≠ 0 ∧ e.translate b.pageDir b.addr ≠ none
  shown : ∀ pageDir addr p, pageDir ≠ 0 → e.translate pageDir addr = some p →
    shown s pageDir addr p = s.logical p
  clean : ∀ p, (∀ b ∈ s.bpSw, e.translate b.pageDir b.addr ≠ some p) → s.mem p = s.logical p

/-- What a step keeps in any case: once every address is right, so is the memory. -/
structure Kept (e : Env) (s : St) : Prop where
  active : ∀ b ∈ s.bpSw, b.active = true ∧ b.pageDir ≠ 0 ∧ e.translate b.pageDir b.addr ≠ none
  clean : Shows e s → ∀ p, (∀ b ∈ s.bpSw, e.translate b.pageDir b.addr ≠ some p) →
    s.mem p = s.logical p

theorem Kept.inv (hk : Kept e s) (h : Shows e s) : Inv e s :=
  ⟨hk.active, h, hk.clean h⟩

theorem Init.inv (h : Init s) : Inv e s := by
  refine ⟨?_, fun pageDir addr p _ _ => ?_, fun p _ => congrFun h.mem p⟩
  · simp [h.bpSw]
  · simp [GdbBreakpoint.shown, here, h.bpSw, h.mem]

theorem breakpointGetByte_eq (hp : pageDir ≠ 0) (hact : ∀ b ∈ s.bpSw, b.active = true) :
    breakpointGetByte s addr pageDir = (here s.bpSw pageDir addr).head?.map origData := by
  rw [breakpointGetByte, breakpointFind_zero hp]
  cases hh : (here s.bpSw pageDir addr).head? with
  | none => rfl
  | some b =>
    have hb := (mem_here.1 (mem_of_head? hh)).1
    simp [hact b hb]

theorem readByte_eq (hp : pageDir ≠ 0) (hact : ∀ b ∈ s.bpSw, b.active = true) {p : Nat}
    (ht : e.translate pageDir addr = some p) :
    readByte e s pageDir addr = some (shown s pageDir addr p) := by
  rw [readByte, breakpointGetByte_eq hp hact, shown, ht]
  cases (here s.bpSw pageDir addr).head? <;> rfl

theorem Inv.good (hi : Inv e s) : Good e s := by
  have hact : ∀ b ∈ s.bpSw, b.active = true := fun b hb => (hi.active b hb).1
  refine ⟨fun pageDir addr size hp => ?_, fun h => ?_⟩
  · induction size generalizing addr with
    | zero => rfl
    | succ size ih =>
      rw [handleMemopRead, logicalBytes]
      cases ht : e.translate pageDir addr with
      | none =>
        have hnone : here s.bpSw pageDir addr = [] := by
          rw [eq_nil_iff_forall_not_mem]
          intro b hb
          obtain ⟨hmem, rfl, rfl⟩ := mem_here.1 hb
          exact (hi.active b hmem).2.2 ht
        have hr : readByte e s pageDir addr = none := by
          rw [readByte, breakpointGetByte_eq hp hact, hnone, ht]
          rfl
        rw [hr]
      | some p =>
        rw [readByte_eq hp hact ht, hi.shown pageDir addr p hp ht, ih]
  · funext p
    exact hi.clean p (by simp [h])

theorem Kept.shows (hk : Kept e s) (hg : Good e s) : Shows e s := by
  intro pageDir addr p hp ht
  have h := hg.reads pageDir addr 1 hp
  rw [handleMemopRead, logicalBytes, readByte_eq hp (fun b hb => (hk.active b hb).1) ht, ht] at h
  exact (List.cons.inj h).1

/-! ## What the steps do -/

/-- The state with a new breakpoint at the byte `p`. -/
def added (s : St) (pageDir : Nat) (addr : Addr) (kind : UInt8) (p : Nat) : St :=
  { s with
    bpSw := s.bpSw ++ [⟨addr, pageDir, kind, s.mem p, true⟩]
    mem := update s.mem p x86BreakpointOpcode }

/-- The state without the breakpoint `bp` that was found. -/
def deleted (s : St) (pageDir : Nat) (addr : Addr) (kind : UInt8) (p : Nat) (bp : Breakpoint) :
    St :=
  { s with
    bpSw := s.bpSw.eraseP (bpMatches addr pageDir kind)
    mem := update s.mem p bp.origData }

theorem step_add (h : step e s (.add pageDir addr kind) = some s') : pageDir ≠ 0 ∧
    ((s' = s ∧ (breakpointFind s.bpSw addr pageDir kind = none → e.present addr = false)) ∨
      (breakpointFind s.bpSw addr pageDir kind = none ∧ e.present addr = true ∧
        ∃ p, e.translate pageDir addr = some p ∧ s' = added s pageDir addr kind p)) := by
  obtain ⟨hp, h⟩ := ite_none_left_eq_some.1 h
  refine ⟨hp, ?_⟩
  rw [breakpointAdd] at h
  cases hf : breakpointFind s.bpSw addr pageDir kind with
  | some bp =>
    simp only [hf, map_some, some.injEq] at h
    exact .inl ⟨h.symm, nofun⟩
  | none =>
    simp only [hf, breakpointToggle, breakpointWriteTarget] at h
    cases hpres : e.present addr with
    | false =>
      simp [hpres] at h
      exact .inl ⟨h.symm, fun _ => rfl⟩
    | true =>
      cases ht : e.translate pageDir addr with
      | none => simp [hpres, ht] at h
      | some p =>
        simp [hpres, ht] at h
        exact .inr ⟨rfl, rfl, p, rfl, h.symm⟩

theorem step_del (hi : Inv e s) (h : step e s (.del pageDir addr kind) = some s') : pageDir ≠ 0 ∧
    ((s' = s ∧ (breakpointFind s.bpSw addr pageDir kind ≠ none → e.present addr = false)) ∨
      (∃ bp, breakpointFind s.bpSw addr pageDir kind = some bp ∧ e.present addr = true ∧
        ∃ p, e.translate pageDir addr = some p ∧ s.mem p = x86BreakpointOpcode ∧
          s' = deleted s pageDir addr kind p bp)) := by
  obtain ⟨hp, h⟩ := ite_none_left_eq_some.1 h
  refine ⟨hp, ?_⟩
  rw [breakpointDel] at h
  cases hf : breakpointFind s.bpSw addr pageDir kind with
  | none =>
    simp only [hf, map_some, some.injEq] at h
    exact .inl ⟨h.symm, absurd rfl⟩
  | some bp =>
    have hmem := hf
    rw [breakpointFind_eq hp] at hmem
    obtain ⟨hb, rfl, rfl⟩ := mem_here.1 (mem_of_find?_eq_some hmem)
    simp only [hf, breakpointToggle, breakpointWriteTarget, (hi.active bp hb).1] at h
    cases hpres : e.present bp.addr with
    | false =>
      simp [hpres] at h
      exact .inl ⟨h.symm, fun _ => rfl⟩
    | true =>
      cases ht : e.translate bp.pageDir bp.addr with
      | none => simp [hpres, ht] at h
      | some p =>
        by_cases hop : s.mem p = x86BreakpointOpcode
        · simp [hpres, ht, hop] at h
          exact .inr ⟨bp, rfl, rfl, p, rfl, hop, h.symm⟩
        · simp [hpres, ht, hop] at h

theorem step_write (hi : Inv e s) (h : step e s (.write pageDir addr value) = some s') :
    pageDir ≠ 0 ∧ ∃ p, e.translate pageDir addr = some p ∧
      ((here s.bpSw pageDir addr ≠ [] ∧ s' = { s with
        bpSw := keepByte (bpMatches addr pageDir 0) value s.bpSw
        logical := update s.logical p value }) ∨
      (here s.bpSw pageDir addr = [] ∧ s' = { s with
        mem := update s.mem p value
        logical := update s.logical p value })) := by
  obtain ⟨hp, h⟩ := ite_none_left_eq_some.1 h
  obtain ⟨p, ht, h⟩ := bind_eq_some_iff.1 h
  refine ⟨hp, p, ht, ?_⟩
  rw [breakpointSetByte, breakpointFind_zero hp] at h
  cases hh : here s.bpSw pageDir addr with
  | nil =>
    simp only [hh, head?_nil] at h
    obtain ⟨-, ⟨⟩⟩ := ite_none_right_eq_some.1 h
    exact .inr ⟨rfl, rfl⟩
  | cons b l =>
    have hb : b ∈ here s.bpSw pageDir addr := by rw [hh]; exact mem_cons_self
    simp only [hh, head?_cons, (hi.active b (mem_here.1 hb).1).1, if_true] at h
    exact .inl ⟨cons_ne_nil _ _, (some.inj h).symm⟩

/-! ## What the debugger reads afterwards -/

theorem here_append_ne (hne : (pageDir', addr') ≠ (pageDir, addr)) (l : List Breakpoint)
    (b : Breakpoint) (hb : b.addr = addr ∧ b.pageDir = pageDir) :
    here (l ++ [b]) pageDir' addr' = here l pageDir' addr' := by
  simp only [here, filter_append]
  rw [filter_cons_of_neg (by grind)]
  simp

theorem here_append_self (l : List Breakpoint) (b : Breakpoint) :
    here (l ++ [b]) b.pageDir b.addr = here l b.pageDir b.addr ++ [b] := by
  simp [here]

/-- A store is seen from every address of the byte that has no breakpoint. -/
theorem shown_update (hh : here s'.bpSw pageDir' addr' = here s.bpSw pageDir' addr')
    (hm : s'.mem = update s.mem p value) : shown s' pageDir' addr' p' =
      if here s.bpSw pageDir' addr' = [] ∧ p' = p then value else shown s pageDir' addr' p' := by
  rw [shown, shown, hh, hm]
  cases here s.bpSw pageDir' addr' with
  | cons b l => simp
  | nil => by_cases hpp : p' = p <;> simp [hpp]

/-- The new breakpoint is seen from the other addresses of its byte. -/
theorem shown_added (ht : e.translate pageDir addr = some p)
    (ht' : e.translate pageDir' addr' = some p') :
    shown (added s pageDir addr kind p) pageDir' addr' p' =
      if here s.bpSw pageDir' addr' = [] ∧ p' = p ∧ (pageDir', addr') ≠ (pageDir, addr) then
        x86BreakpointOpcode
      else shown s pageDir' addr' p' := by
  by_cases hx : (pageDir', addr') = (pageDir, addr)
  · obtain ⟨rfl, rfl⟩ := mk.inj hx
    cases ht.symm.trans ht'
    rw [if_neg (by simp), shown, shown, added, here_append_self s.bpSw ⟨_, _, _, _, _⟩]
    cases here s.bpSw pageDir' addr' <;> rfl
  · rw [shown_update (here_append_ne hx _ _ ⟨rfl, rfl⟩) rfl]
    simp [hx]

/-- The kept byte is seen from the other addresses of the byte, and a second breakpoint at the
address from there. -/
theorem shown_deleted (hp : pageDir ≠ 0) (ht : e.translate pageDir addr = some p)
    (hf : breakpointFind s.bpSw addr pageDir kind = some bp)
    (ht' : e.translate pageDir' addr' = some p') :
    shown (deleted s pageDir addr kind p bp) pageDir' addr' p' =
      if (pageDir', addr') = (pageDir, addr) then
        if breakpointFind s.bpSw addr pageDir 0 = some bp then
          ((here s.bpSw pageDir addr).tail.head?.map origData).getD bp.origData
        else shown s pageDir addr p
      else if here s.bpSw pageDir' addr' = [] ∧ p' = p then bp.origData
      else shown s pageDir' addr' p' := by
  by_cases hx : (pageDir', addr') = (pageDir, addr)
  · obtain ⟨rfl, rfl⟩ := mk.inj hx
    cases ht.symm.trans ht'
    rw [shown, shown, deleted, here_eraseP_self hp, breakpointFind_zero hp]
    rw [breakpointFind_eq hp] at hf
    cases hh : here s.bpSw pageDir' addr' with
    | nil => simp [hh] at hf
    | cons b l =>
      rw [hh, find?_cons] at hf
      cases hk : kind == 0 || b.kind == kind with
      | true =>
        rw [hk] at hf
        cases hf
        rw [eraseP_cons, hk]
        simp
      | false =>
        rw [hk] at hf
        have hne : b ≠ bp := by
          rintro rfl
          have := find?_some hf
          rw [hk] at this
          cases this
        rw [eraseP_cons, hk]
        simp [hne]
  · rw [if_neg hx, shown_update (here_eraseP_ne hp kind hx) rfl]

/-- A write is seen from the address itself. -/
theorem shown_kept (hp : pageDir ≠ 0) (hh : here s.bpSw pageDir addr ≠ []) {logical : Nat → UInt8} :
    shown { s with
        bpSw := keepByte (bpMatches addr pageDir 0) value s.bpSw
        logical := logical } pageDir' addr' p' =
      if (pageDir', addr') = (pageDir, addr) then value else shown s pageDir' addr' p' := by
  split_ifs with hx
  · obtain ⟨rfl, rfl⟩ := mk.inj hx
    rw [shown, here_keepByte_self hp]
    obtain ⟨b, l, hbl⟩ := exists_cons_of_ne_nil hh
    simp [hbl]
  · rw [shown, here_keepByte_ne hp value hx]
    rfl

/-! ## One step -/

section

variable (hi : Inv e s) (hp : pageDir ≠ 0) (ht : e.translate pageDir addr = some p)
include hi hp ht

/-- An address without a breakpoint shows the memory, which is then right. -/
theorem Inv.mem_eq (hnil : here s.bpSw pageDir addr = []) : s.mem p = s.logical p := by
  have h := hi.shown pageDir addr p hp ht
  rwa [GdbBreakpoint.shown, hnil] at h

/-- The first breakpoint at an address keeps the logical byte. -/
theorem Inv.origData_eq (hh : (here s.bpSw pageDir addr).head? = some bp) :
    bp.origData = s.logical p := by
  have h := hi.shown pageDir addr p hp ht
  rwa [GdbBreakpoint.shown, hh] at h

theorem Inv.writeSound_iff : WriteSound e s pageDir addr value ↔ s.logical p = value ∨
      ∀ pageDir' addr', Alias e pageDir addr pageDir' addr' →
        here s.bpSw pageDir addr = [] ∧ here s.bpSw pageDir' addr' = [] := by
  rw [WriteSound, readByte_eq hp (fun b hb => (hi.active b hb).1) ht,
    hi.shown pageDir addr p hp ht, some.injEq]

omit hp in
theorem Inv.added_iff : Shows e (added s pageDir addr kind p) ↔ AddSound e s pageDir addr := by
  rw [AddSound, ht, map_some, some.injEq]
  constructor
  · refine fun h => or_iff_not_imp_left.2 fun hop pageDir' addr' ⟨hp', hx, ht'⟩ hnil => hop ?_
    rw [ht] at ht'
    have h := h pageDir' addr' p hp' ht'
    rw [shown_added ht ht', if_pos ⟨hnil, rfl, hx⟩] at h
    exact (hi.mem_eq hp' ht' hnil).trans h.symm
  · intro hok pageDir' addr' p' hp' ht'
    rw [shown_added ht ht']
    split_ifs with hc
    · obtain ⟨hnil, rfl, hx⟩ := hc
      rcases hok with hop | hall
      · exact hop.symm.trans (hi.mem_eq hp' ht' hnil)
      · exact absurd hnil (hall _ _ ⟨hp', hx, ht'.trans ht.symm⟩)
    · exact hi.shown pageDir' addr' p' hp' ht'

theorem Inv.added_kept : Kept e (added s pageDir addr kind p) := by
  refine ⟨forall_mem_append.2 ⟨hi.active, forall_mem_singleton.2 ⟨rfl, hp, by simp [ht]⟩⟩,
    fun _ q hq => ?_⟩
  have hne : q ≠ p := by
    rintro rfl
    exact hq _ (mem_append_right _ (mem_singleton.2 rfl)) ht
  exact (update_of_ne hne _ _).trans (hi.clean q fun b hb => hq b (mem_append_left _ hb))

theorem Inv.deleted_iff (hop : s.mem p = x86BreakpointOpcode)
    (hf : breakpointFind s.bpSw addr pageDir kind = some bp) :
    Shows e (deleted s pageDir addr kind p bp) ↔ DelSound e s pageDir addr bp := by
  have hbp : breakpointFind s.bpSw addr pageDir 0 = some bp → bp.origData = s.logical p :=
    fun hfirst => hi.origData_eq hp ht (breakpointFind_zero hp ▸ hfirst)
  constructor
  · refine fun h => ⟨or_iff_not_imp_left.2 fun hcc pageDir' addr' ⟨hp', hx, ht'⟩ hnil => hcc ?_,
      fun hfirst next hn => ?_⟩
    · rw [ht] at ht'
      have h := h pageDir' addr' p hp' ht'
      rw [shown_deleted hp ht hf ht', if_neg hx, if_pos ⟨hnil, rfl⟩] at h
      exact h.trans ((hi.mem_eq hp' ht' hnil).symm.trans hop)
    · have h := h pageDir addr p hp ht
      rw [shown_deleted hp ht hf ht, if_pos rfl, if_pos hfirst, hn] at h
      exact h.trans (hbp hfirst).symm
  · intro hok pageDir' addr' p' hp' ht'
    rw [shown_deleted hp ht hf ht']
    split
    · rename_i hx
      obtain ⟨rfl, rfl⟩ := mk.inj hx
      cases ht.symm.trans ht'
      split_ifs with hfirst
      · cases hn : (here s.bpSw pageDir' addr').tail.head? with
        | none => exact hbp hfirst
        | some next => exact (hok.2 hfirst next hn).trans (hbp hfirst)
      · exact hi.shown pageDir' addr' p hp ht
    · rename_i hx
      split_ifs with hc
      · obtain ⟨hnil, rfl⟩ := hc
        rcases hok.1 with hcc | hall
        · exact hcc.trans (hop.symm.trans (hi.mem_eq hp' ht' hnil))
        · exact absurd hnil (hall _ _ ⟨hp', hx, ht'.trans ht.symm⟩)
      · exact hi.shown pageDir' addr' p' hp' ht'

theorem Inv.deleted_kept (bp : Breakpoint) : Kept e (deleted s pageDir addr kind p bp) := by
  refine ⟨fun b hb => hi.active b (mem_of_mem_eraseP hb), fun hshown q hq => ?_⟩
  by_cases hqp : q = p
  · subst hqp
    have hnil : here (deleted s pageDir addr kind q bp).bpSw pageDir addr = [] := by
      rw [eq_nil_iff_forall_not_mem]
      intro b hb
      obtain ⟨hmem, rfl, rfl⟩ := mem_here.1 hb
      exact hq b hmem ht
    have h := hshown pageDir addr q hp ht
    rwa [GdbBreakpoint.shown, hnil] at h
  · refine (update_of_ne hqp _ _).trans (hi.clean q fun b hb hbq => ?_)
    refine hq b (mem_eraseP_of_neg ?_ |>.2 hb) hbq
    intro hm
    rw [bpMatches_eq hp] at hm
    simp only [and_eq_true, beq_iff_eq] at hm
    obtain ⟨⟨rfl, rfl⟩, -⟩ := hm
    exact hqp (some.inj (hbq.symm.trans ht))

end

/-- After a write to the byte `p` that the addresses in `C` show. -/
theorem Inv.written_iff (hi : Inv e s) {C : Nat → Addr → Prop} [DecidableRel C]
    (hl : s'.logical = update s.logical p value)
    (hshown : ∀ pageDir addr p', e.translate pageDir addr = some p' →
      GdbBreakpoint.shown s' pageDir addr p' =
        if C pageDir addr ∧ p' = p then value else GdbBreakpoint.shown s pageDir addr p') :
    Shows e s' ↔ s.logical p = value ∨
      ∀ pageDir addr, pageDir ≠ 0 → e.translate pageDir addr = some p → C pageDir addr := by
  constructor
  · refine fun h => or_iff_not_imp_left.2 fun hne pageDir addr hp ht => by_contra fun hc => hne ?_
    have h := h pageDir addr p hp ht
    rwa [hshown _ _ _ ht, if_neg fun h => hc h.1, hi.shown pageDir addr p hp ht, hl,
      update_self] at h
  · intro hok pageDir addr p' hp ht
    rw [hshown _ _ _ ht, hl]
    split_ifs with hc
    · rw [hc.2, update_self]
    rename_i hc
    rw [hi.shown pageDir addr p' hp ht]
    by_cases hpp : p' = p
    · subst hpp
      rw [update_self]
      exact hok.resolve_right fun hall => hc ⟨hall _ _ hp ht, rfl⟩
    · rw [update_of_ne hpp]

theorem Inv.step_iff {a : Act} (hi : Inv e s) (hs : step e s a = some s') :
    Kept e s' ∧ (Shows e s' ↔ Sound e s a) := by
  have hsame : ∀ {a}, Sound e s a → Kept e s ∧ (Shows e s ↔ Sound e s a) := fun h =>
    ⟨⟨hi.active, fun _ => hi.clean⟩, iff_of_true hi.shown h⟩
  cases a with
  | add pageDir addr kind =>
    obtain ⟨hp, ⟨rfl, hno⟩ | ⟨hf, hpres, p, ht, rfl⟩⟩ := step_add hs
    · exact hsame fun hf hpres => by simp [hno hf] at hpres
    · refine ⟨hi.added_kept hp ht, (hi.added_iff ht).trans ?_⟩
      exact ⟨fun h _ _ => h, fun h => h hf hpres⟩
  | del pageDir addr kind =>
    obtain ⟨hp, ⟨rfl, hno⟩ | ⟨bp, hf, hpres, p, ht, hop, rfl⟩⟩ := step_del hi hs
    · exact hsame fun bp hf hpres => by simp [hno (by simp [hf])] at hpres
    · refine ⟨hi.deleted_kept hp ht bp, (hi.deleted_iff hp ht hop hf).trans ⟨fun h bp' hf' _ => ?_,
        fun h => h bp hf hpres⟩⟩
      exact some.inj (hf.symm.trans hf') ▸ h
  | write pageDir addr value =>
    obtain ⟨hp, p, ht, ⟨hh, rfl⟩ | ⟨hh, rfl⟩⟩ := step_write hi hs
    · refine ⟨⟨?_, fun _ q hq => ?_⟩, (hi.written_iff
        (C := fun pageDir' addr' => (pageDir', addr') = (pageDir, addr)) rfl
        fun pageDir' addr' p' ht' => ?_).trans ?_⟩
      · exact (forall_keepByte (P := fun b => b.2.2 = true ∧ b.2.1 ≠ 0 ∧
          e.translate b.2.1 b.1 ≠ none)).2 hi.active
      · have hq' := (forall_keepByte (P := fun b => e.translate b.2.1 b.1 ≠ some q)).1 hq
        have hqp : q ≠ p := by
          rintro rfl
          obtain ⟨b, l, hbl⟩ := exists_cons_of_ne_nil hh
          obtain ⟨hb, rfl, rfl⟩ := mem_here.1 (hbl ▸ mem_cons_self : b ∈ here _ _ _)
          exact hq' b hb ht
        exact (hi.clean q hq').trans (update_of_ne hqp _ _).symm
      · rw [shown_kept hp hh]
        refine if_congr (iff_self_and.2 fun hx => ?_) rfl rfl
        obtain ⟨rfl, rfl⟩ := mk.inj hx
        exact some.inj (ht'.symm.trans ht)
      · refine Iff.trans (or_congr_right ?_) (hi.writeSound_iff hp ht).symm
        exact ⟨fun h pageDir' addr' ⟨hp', hx, ht'⟩ => absurd (h _ _ hp' (ht'.trans ht)) hx,
          fun h pageDir' addr' hp' ht' => by_contra fun hx =>
            hh (h _ _ ⟨hp', hx, ht'.trans ht.symm⟩).1⟩
    · refine ⟨⟨hi.active, fun _ q hq => ?_⟩, (hi.written_iff
        (C := fun pageDir' addr' => here s.bpSw pageDir' addr' = []) rfl
        fun pageDir' addr' p' _ => ?_).trans ?_⟩
      · by_cases hqp : q = p
        · simp [hqp]
        · simpa [hqp] using hi.clean q hq
      · exact shown_update rfl rfl
      · refine Iff.trans (or_congr_right ?_) (hi.writeSound_iff hp ht).symm
        refine ⟨fun h pageDir' addr' ⟨hp', _, ht'⟩ => ⟨hh, h _ _ hp' (ht'.trans ht)⟩,
          fun h pageDir' addr' hp' ht' => ?_⟩
        by_cases hx : (pageDir', addr') = (pageDir, addr)
        · obtain ⟨rfl, rfl⟩ := mk.inj hx
          exact hh
        · exact (h _ _ ⟨hp', hx, ht'.trans ht.symm⟩).2

/-! ## Results -/

/-- **Breakpoints are transparent exactly along sound runs**, for every list of additions,
removals and writes and every mapping. -/
theorem breakpoints_right_iff (e : Env) (s : St) (h : Init s) (acts : List Act) :
    (lts e).Always (Good e) s acts ↔ (lts e).Meets (Sound e) s acts := by
  refine LTS.always_iff (fun _ hi => hi.good)
    (fun _ _ _ hi hok hs => (hi.step_iff hs).1.inv ((hi.step_iff hs).2.2 hok))
    (fun _ _ _ hi hno hs hg => hno ((hi.step_iff hs).2.1 ((hi.step_iff hs).1.shows hg))) h.inv acts

/-- One page directory that maps every address to a byte of its own. -/
def sampleEnv : Env := ⟨fun pageDir addr => if pageDir = 1 then some addr.toNat else none,
  fun _ => true, fun _ _ => true⟩

def sampleSt : St := ⟨[], fun _ => 0x90, fun _ => 0x90⟩

theorem sampleSt_init : Init sampleSt := ⟨rfl, rfl⟩

theorem sampleEnv_alias (addr : Addr) (pageDir' : Nat) (addr' : Addr) :
    ¬ Alias sampleEnv 1 addr pageDir' addr' := by
  rintro ⟨-, hx, ht⟩
  simp only [sampleEnv, if_true] at ht
  split at ht
  · rename_i hp
    exact hx (by rw [hp, BitVec.eq_of_toNat_eq (some.inj ht)])
  · cases ht

/-- A breakpoint, a write over it and its removal. -/
theorem breakpoints_right_sample : (lts sampleEnv).Always (Good sampleEnv) sampleSt
    [.add 1 16 1, .write 1 16 0x55, .del 1 16 1] :=
  (breakpoints_right_iff sampleEnv sampleSt sampleSt_init _).2 (by
    refine .cons rfl ?_ <| .cons rfl ?_ <| .cons rfl ?_ trivial
    · exact fun _ _ => .inr fun _ _ h => absurd h (sampleEnv_alias _ _ _)
    · exact .inr fun _ _ h => absurd h (sampleEnv_alias _ _ _)
    · exact fun _ _ _ => ⟨.inr fun _ _ h => absurd h (sampleEnv_alias _ _ _), fun _ _ => nofun⟩)

/-- The debugger reads the opcode that the second breakpoint kept. -/
theorem opcode_read : ∃ s, (lts sampleEnv).Reachable s ∧ s.logical 16 = 0x90 ∧
    handleMemopRead sampleEnv s 1 16 1 = [0xcc] := by
  have hrun : (lts sampleEnv).Run sampleSt [.add 1 16 1, .add 1 16 2, .del 1 16 1] _ :=
    .cons rfl (.cons rfl (.cons rfl (.nil _)))
  exact ⟨_, ⟨sampleSt, _, sampleSt_init, hrun⟩, rfl, rfl⟩

end Dgos.L4.GdbBreakpoint
