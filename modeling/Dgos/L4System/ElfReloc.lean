import Dgos.Core.ByteStore
import Dgos.Core.Chain

/-!
# Relocations of kernel modules (kernel/arch/x86_64/elf64.cc)

`apply_relocs` walks the two tables of relocations of a module that has been loaded with its
addresses moved by `base_adj`. For each it finds the value of the symbol, computes a value after
the type, stores it at the place of the relocation and then tests whether it was cut. The value
of a named symbol comes from the hash table of the kernel, or else from those of the loaded
modules (the module itself is one of them).

The tables of relocations, symbols and names are given next to the memory that is relocated.
Words have 64 bits. `cpu_debug_break` changes nothing.

`abiValue` and `address` say what the values are, by the table of relocation types in
kernel/arch/x86_64/elf64_decl.h: `G` is the offset of the symbol's entry in the global offset
table, `GOT` the address of that table in memory. That table gives `GOT + A + P` for
`R_AMD64_GOTPC32`, as drafts of the ABI did; the ABI itself has the distance from the place to
the table, `GOT + A - P`. Both editions are kept.
-/
namespace Dgos.L4.ElfReloc

abbrev Word := BitVec 64

abbrev Name := List UInt8

/-! ## Tables -/

/-- mirrors elf64_decl.h:251-259 -/
structure Sym where
  stName : Nat
  stShndx : Nat
  stValue : Word
  stSize : Word

def shnUndef : Nat := 0
def shnAbs : Nat := 0xFFF1

/-- mirrors elf64_decl.h:292-297 -/
structure Rela where
  rOffset : Word
  rInfo : Word
  rAddend : Word

/-- mirrors elf64_decl.h:299 -/
def Rela.sym (r : Rela) : Nat := (r.rInfo >>> 32).toNat

/-- `strtab` gives the string at an offset.
mirrors elf64.cc:68-78 -/
structure KernelHt where
  hashNbucket : Nat
  hashNchain : Nat
  hashBuckets : Nat → Nat
  hashChains : Nat → Nat
  symtab : Nat → Sym
  strtab : Nat → Name
  baseAdj : Word

/-- The fields of `module_t` that `apply_relocs` reads.
mirrors elf64.cc:151-218 -/
structure Module where
  baseAdj : Word
  dtPltgot : Word
  syms : Nat → Sym
  strs : Nat → Name
  /-- the relocations from `dt_rela` on -/
  rela : List Rela
  /-- those from `dt_jmprel` on -/
  jmprel : List Rela

/-- The tables that symbols are looked up in. -/
structure Exports where
  exportHt : KernelHt
  loadedModules : List KernelHt

/-! ## Types of relocations -/

inductive RelocType where
  | none | r64 | pc32 | got32 | globDat | jumpSlot | relative | gotpcrel | r32 | r32s | r16 | pc16
  | r8 | pc8 | dtpmod64 | dtpoff64 | pc64 | gotoff64 | gotpc32 | size32 | size64 | unknown
  deriving DecidableEq, Repr

/-- mirrors elf64_decl.h:476-515 -/
def relocType : Nat → RelocType
  | 0 => .none
  | 1 => .r64
  | 2 => .pc32
  | 3 => .got32
  | 6 => .globDat
  | 7 => .jumpSlot
  | 8 => .relative
  | 9 => .gotpcrel
  | 10 => .r32
  | 11 => .r32s
  | 12 => .r16
  | 13 => .pc16
  | 14 => .r8
  | 15 => .pc8
  | 16 => .dtpmod64
  | 17 => .dtpoff64
  | 24 => .pc64
  | 25 => .gotoff64
  | 26 => .gotpc32
  | 32 => .size32
  | 33 => .size64
  | _ => .unknown

/-- mirrors elf64_decl.h:300 -/
def Rela.type (r : Rela) : RelocType := relocType (r.rInfo.toNat % 2 ^ 32)

/-- The labels behind the switch: how much is stored and how the cut is tested.
mirrors elf64.cc:965-1018 -/
inductive Common where
  | int64 | int32 | uint32 | int16 | uint16 | int8 | uint8

def Common.field : Common → ByteField
  | .int64 => ⟨8, true⟩
  | .int32 => ⟨4, true⟩
  | .uint32 => ⟨4, false⟩
  | .int16 => ⟨2, true⟩
  | .uint16 => ⟨2, false⟩
  | .int8 => ⟨1, true⟩
  | .uint8 => ⟨1, false⟩

/-! ## The code -/

/-- mirrors elf64_decl.h:519-529 -/
def elf64Hash (name : Name) : Nat :=
  name.foldl (fun h c =>
    let h := (h <<< 4) + c.toNat
    let g := h &&& 0xf0000000
    (h ^^^ (g >>> 24)) &&& 0x0fffffff) 0

/-- The walk along a chain; `none` when it does not come to an end within the fuel.
mirrors elf64.cc:696-711 -/
def chainLookup (ht : KernelHt) (name : Name) : Nat → Nat → Option (Option Nat)
  | 0, _ => none
  | fuel + 1, i =>
    if i = 0 then some none
    else if (ht.symtab i).stShndx = shnUndef then chainLookup ht name fuel (ht.hashChains i)
    else if ht.strtab (ht.symtab i).stName = name then some (some i)
    else chainLookup ht name fuel (ht.hashChains i)

/-- The lookup in one table; 0 when there is no such symbol.
mirrors elf64.cc:690-733 -/
def lookupOne (ht : KernelHt) (name : Name) : Option (Option Word) := do
  let bucket := elf64Hash name % ht.hashNbucket
  let found ← chainLookup ht name (ht.hashNchain + 1) (ht.hashBuckets bucket)
  return found.map fun i => (ht.symtab i).stValue + ht.baseAdj

/-- The loop over the loaded modules, which passes over an address of 0.
mirrors elf64.cc:713-724 -/
def lookupModules (name : Name) : List KernelHt → Option Word
  | [] => some 0
  | other :: rest => do
    let sym := (← lookupOne other name).getD 0
    if sym ≠ 0 then return sym else lookupModules name rest

/-- mirrors elf64.cc:690-741 -/
def modloadLookupName (e : Exports) (name : Name) : Option Word := do
  match ← lookupOne e.exportHt name with
  | some addr => return addr
  | none => lookupModules name e.loadedModules

inductive Errno
  | ok
  | enoexec
  deriving DecidableEq, Repr

/-- The value of every case of the switch and the label it goes to; nothing is stored for the
types without one. `R_AMD64_JUMP_SLOT` stores in place.
mirrors elf64.cc:813-963 -/
def caseValue (dtPltgot a b p g z s : Word) : RelocType → Option (Word × Common)
  | .jumpSlot => some (s, .int64)
  | .r64 => some (s + a, .int64)
  | .globDat => some (s, .int64)
  | .relative => some (b + a, .int64)
  | .gotoff64 => some (s + a - dtPltgot, .int64)
  | .pc64 => some (s + a - p, .int64)
  | .size64 => some (z + a, .int64)
  | .pc32 => some (s + a - p, .int32)
  | .got32 => some (g + a, .uint32)
  | .gotpc32 => some (g + a + p, .int32)
  | .size32 => some (z + a, .uint32)
  | .gotpcrel => some (g + a - p, .int32)
  | .r32 => some (s + a, .uint32)
  | .r32s => some (s + a, .int32)
  | .r16 => some (s + a, .uint16)
  | .pc16 => some (s + a - p, .int16)
  | .r8 => some (s + a, .uint8)
  | .pc8 => some (s + a - p, .int8)
  | .dtpmod64 | .dtpoff64 | .none | .unknown => none

def Module.place (m : Module) (r : Rela) : Word := r.rOffset + m.baseAdj

/-- The value of the switch for a relocation whose symbol has the value `s`. -/
def Module.value (m : Module) (r : Rela) (s : Word) : Option (Word × Common) :=
  caseValue m.dtPltgot r.rAddend m.baseAdj (m.place r) (m.dtPltgot + m.baseAdj)
    (m.syms r.sym).stSize s r.type

/-- The symbol's value; 0 for a named symbol stands for one that is not found.
mirrors elf64.cc:792-811 -/
def symValue (m : Module) (e : Exports) (r : Rela) : Option Word :=
  let sym := m.syms r.sym
  if sym.stName ≠ 0 then modloadLookupName e (m.strs sym.stName)
  else some (sym.stValue + m.baseAdj)

/-- One round of the loop.
mirrors elf64.cc:762-1029 -/
def applyReloc (m : Module) (e : Exports) (mem : ByteMem) (r : Rela) : Option (Errno × ByteMem) :=
  (symValue m e r).map fun s =>
    if (m.syms r.sym).stName ≠ 0 ∧ s = 0 then (.enoexec, mem)
    else
      match m.value r s with
      | none => (.ok, mem)
      | some (value, c) =>
        (if c.field.Fits value then .ok else .enoexec,
          ByteStore.run ⟨m.place r, c.field.size, value⟩ mem)

/-- mirrors elf64.cc:761-1030 -/
def applyTable (m : Module) (e : Exports) : ByteMem → List Rela → Option (Errno × ByteMem)
  | mem, [] => some (.ok, mem)
  | mem, r :: rs => do
    let (err, mem) ← applyReloc m e mem r
    if err = .ok then applyTable m e mem rs else return (err, mem)

/-- mirrors elf64.cc:743-1037 -/
def applyRelocs (m : Module) (e : Exports) (mem : ByteMem) : Option (Errno × ByteMem) := do
  let (err, mem) ← applyTable m e mem m.rela
  if err = .ok then applyTable m e mem m.jmprel else return (err, mem)

/-! ## What the values are -/

/-- The link of a hash chain. -/
def chainPtr (i : Nat) : Option Nat := if i = 0 then none else some i

/-- The symbols of a table that define a name. -/
def KernelHt.Defines (ht : KernelHt) (i : Nat) (name : Name) : Prop :=
  i ≠ 0 ∧ i < ht.hashNchain ∧ (ht.symtab i).stShndx ≠ shnUndef ∧
    ht.strtab (ht.symtab i).stName = name

instance (ht : KernelHt) (i : Nat) (name : Name) : Decidable (ht.Defines i name) :=
  inferInstanceAs (Decidable (_ ∧ _))

/-- A table as a linker writes it: every chain comes to an end inside of the table, every symbol
that is defined is on the chain of its name, and no name is defined twice. -/
structure KernelHt.Built (ht : KernelHt) : Prop where
  nbucket : 0 < ht.hashNbucket
  chains : ∀ bucket < ht.hashNbucket, ∃ l : List Nat,
    Chain (fun i => chainPtr (ht.hashChains i)) (chainPtr (ht.hashBuckets bucket)) l ∧
      l.length ≤ ht.hashNchain ∧ (∀ i ∈ l, i ≠ 0 ∧ i < ht.hashNchain) ∧
      ∀ i name, ht.Defines i name → elf64Hash name % ht.hashNbucket = bucket → i ∈ l
  unique : ∀ i j name, ht.Defines i name → ht.Defines j name → i = j

structure Exports.Built (e : Exports) : Prop where
  kernel : e.exportHt.Built
  /-- the kernel is where it was linked -/
  kernelBase : e.exportHt.baseAdj = 0
  modules : ∀ ht ∈ e.loadedModules, ht.Built

/-- The symbol of a table with a name. -/
def KernelHt.find (ht : KernelHt) (name : Name) : Option Nat :=
  (List.range ht.hashNchain).find? fun i => ht.Defines i name

/-- Where a symbol is: an absolute one does not move. -/
def KernelHt.address (ht : KernelHt) (i : Nat) : Word :=
  if (ht.symtab i).stShndx = shnAbs then (ht.symtab i).stValue
  else (ht.symtab i).stValue + ht.baseAdj

/-- The address of the first definition of a name, the kernel's before those of modules. -/
def Exports.address (e : Exports) (name : Name) : Option Word :=
  (e.exportHt :: e.loadedModules).findSome? fun ht => (ht.find name).map ht.address

/-- The value of the symbol of a relocation; an undefined symbol without name is 0. -/
def abiSymValue (m : Module) (e : Exports) (r : Rela) : Option Word :=
  let sym := m.syms r.sym
  if sym.stName ≠ 0 then e.address (m.strs sym.stName)
  else if sym.stShndx = shnUndef then some 0
  else if sym.stShndx = shnAbs then some sym.stValue
  else some (sym.stValue + m.baseAdj)

/-- What `R_AMD64_GOTPC32` is. -/
inductive Edition
  | draft
  | final

/-- The field and the value by type. `g` is the offset of the symbol's entry in the table `got`.
mirrors elf64_decl.h:459-515 -/
def abiValue (ed : Edition) (a b p g got z s : Word) : RelocType → Option (Word × ByteField)
  | .r64 => some (s + a, ⟨8, true⟩)
  | .pc32 => some (s + a - p, ⟨4, true⟩)
  | .got32 => some (g + a, ⟨4, false⟩)
  | .globDat => some (s, ⟨8, true⟩)
  | .jumpSlot => some (s, ⟨8, true⟩)
  | .relative => some (b + a, ⟨8, true⟩)
  | .gotpcrel => some (g + got + a - p, ⟨4, true⟩)
  | .r32 => some (s + a, ⟨4, false⟩)
  | .r32s => some (s + a, ⟨4, true⟩)
  | .r16 => some (s + a, ⟨2, false⟩)
  | .pc16 => some (s + a - p, ⟨2, true⟩)
  | .r8 => some (s + a, ⟨1, false⟩)
  | .pc8 => some (s + a - p, ⟨1, true⟩)
  | .pc64 => some (s + a - p, ⟨8, true⟩)
  | .gotoff64 => some (s + a - got, ⟨8, true⟩)
  | .gotpc32 => some (match ed with | .draft => got + a + p | .final => got + a - p, ⟨4, true⟩)
  | .size32 => some (z + a, ⟨4, false⟩)
  | .size64 => some (z + a, ⟨8, true⟩)
  | .none | .dtpmod64 | .dtpoff64 | .unknown => none

/-- The types that are applied. -/
def RelocType.Handled (t : RelocType) : Prop := t ∉ [.dtpmod64, .dtpoff64, .unknown]

instance (t : RelocType) : Decidable t.Handled := inferInstanceAs (Decidable (_ ∉ _))

section Abi

variable (m : Module) (e : Exports) (ed : Edition) (gotOffset : Nat → Word)

/-- What is to be stored for a relocation whose symbol has the value `s`. -/
def Module.abi (r : Rela) (s : Word) : Option (Word × ByteField) :=
  abiValue ed r.rAddend m.baseAdj (m.place r) (gotOffset r.sym) (m.dtPltgot + m.baseAdj)
    (m.syms r.sym).stSize s r.type

def Module.relas : List Rela := m.rela ++ m.jmprel

/-- How many bytes a relocation has. -/
def Rela.size (r : Rela) : Nat :=
  ((abiValue .final 0 0 0 0 0 0 0 r.type).map fun v => v.2.size).getD 0

def Module.Covers (r : Rela) (a : Word) : Prop := (a - m.place r).toNat < r.size

/-- The relocation has been applied: its symbol is defined, its value fits and is at its place. -/
def Applied (mem : ByteMem) (r : Rela) : Prop :=
  ∃ s, abiSymValue m e r = some s ∧ ∀ v f, m.abi ed gotOffset r s = some (v, f) →
    f.Fits v ∧ ∀ i < f.size, mem (m.place r + BitVec.ofNat 64 i) = ByteStore.byte v i

/-- `apply_relocs` comes to an end; when it succeeds, every relocation has been applied and no
other byte is changed. A symbol that is not defined or a value that does not fit is an error. -/
def Right (mem : ByteMem) : Prop :=
  ∃ err mem', applyRelocs m e mem = some (err, mem') ∧
    (err = .ok → (∀ r ∈ m.relas, Applied m e ed gotOffset mem' r) ∧
      ∀ a, (∀ r ∈ m.relas, ¬ m.Covers r a) → mem' a = mem a)

end Abi

end Dgos.L4.ElfReloc
