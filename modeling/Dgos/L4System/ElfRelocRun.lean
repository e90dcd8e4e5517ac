import Dgos.L4System.ElfReloc

/-!
# What `apply_relocs` stores

The walk along the hash chains of a table a linker has built finds the symbol that defines a
name. A run of the loop over relocations is the list of its stores, or stops at the first
relocation that is rejected.

The loader subtracts the link-time address of the global offset table for `R_AMD64_GOTOFF64`,
takes the address of that table for the offset of an entry (`R_AMD64_GOT32`,
`R_AMD64_GOTPCREL`), adds the place for `R_AMD64_GOTPC32`, and moves every symbol by the base,
also absolute ones and the undefined symbol without name.

Results:
* `lookupOne_eq`, `modloadLookupName_found`: the lookup in the hash tables is `found`, which
  speaks of the definitions of the name.
* `modloadLookupName_eq`: it is the address of the first definition.
* `relocs_right_iff`: relocations whose places do not overlap are applied right exactly when one
  of them is rejected or each is of a type and symbol for which the two values agree.
-/
namespace Dgos.L4.ElfReloc

open List Option Prod
open ByteStore (runAll Apart byte)

/-! ## Lookup -/

variable {i : Nat} {m : Module} {e : Exports} {ed : Edition} {gotOffset : Nat → Word} {mem : ByteMem}
  {r : Rela} {rs : List Rela} {s s' v : Word} {c : Common}

section Lookup

variable {ht : KernelHt} {name : Name} {hts : List KernelHt}

/-- The entry of a chain that is taken. -/
def KernelHt.Hit (ht : KernelHt) (name : Name) (i : Nat) : Bool :=
  (ht.symtab i).stShndx ≠ shnUndef ∧ ht.strtab (ht.symtab i).stName = name

theorem KernelHt.hit_iff : ht.Hit name i = true ↔
    (ht.symtab i).stShndx ≠ shnUndef ∧ ht.strtab (ht.symtab i).stName = name := by
  simp [KernelHt.Hit]

theorem chainLookup_eq {l : List Nat} {fuel : Nat}
    (h : Chain (fun i => chainPtr (ht.hashChains i)) (chainPtr i) l) (hf : l.length < fuel) :
    chainLookup ht name fuel i = some (l.find? (ht.Hit name)) := by
  induction l generalizing fuel i with
  | nil =>
    obtain _ | fuel := fuel
    · omega
    have hi : i = 0 := by
      by_contra hne
      simp [Chain, chainPtr, hne] at h
    rw [chainLookup, if_pos hi]
    rfl
  | cons j l ih =>
    obtain _ | fuel := fuel
    · omega
    obtain ⟨hj, htail⟩ := h
    have hi : i ≠ 0 := by
      rintro rfl
      simp [chainPtr] at hj
    obtain rfl : i = j := by simpa [chainPtr, hi] using hj
    have hrest : chainLookup ht name fuel (ht.hashChains i) = some (l.find? (ht.Hit name)) :=
      ih htail (by simpa using hf)
    rw [chainLookup, if_neg hi, find?_cons]
    by_cases hu : (ht.symtab i).stShndx = shnUndef
    · have : ht.Hit name i = false := by simp [KernelHt.Hit, hu]
      rw [if_pos hu, hrest, this]
    rw [if_neg hu]
    by_cases hn : ht.strtab (ht.symtab i).stName = name
    · have : ht.Hit name i = true := by simp [KernelHt.Hit, hu, hn]
      rw [if_pos hn, this]
    · have : ht.Hit name i = false := by simp [KernelHt.Hit, hn]
      rw [if_neg hn, hrest, this]

theorem KernelHt.find_eq_some_iff (hb : ht.Built) : ht.find name = some i ↔ ht.Defines i name := by
  constructor
  · intro h
    simpa using find?_some h
  · intro hd
    cases hf : ht.find name with
    | none =>
      have := find?_eq_none.1 hf i (mem_range.2 hd.2.1)
      exact absurd hd (by simpa using this)
    | some j =>
      have hj : ht.Defines j name := by simpa using find?_some hf
      rw [hb.unique j i name hj hd]

theorem KernelHt.find_eq_none_iff : ht.find name = none ↔ ∀ i, ¬ ht.Defines i name := by
  rw [KernelHt.find, find?_eq_none]
  constructor
  · intro h i hd
    exact absurd hd (by simpa using h i (mem_range.2 hd.2.1))
  · intro h i _
    simpa using h i

/-- Where the loader takes a symbol to be: every symbol moves. -/
def KernelHt.moved (ht : KernelHt) (i : Nat) : Word := (ht.symtab i).stValue + ht.baseAdj

theorem lookupOne_eq (hb : ht.Built) (name : Name) :
    lookupOne ht name = some ((ht.find name).map ht.moved) := by
  obtain ⟨l, hl, hlen, hin, hhas⟩ := hb.chains _ (Nat.mod_lt (elf64Hash name) hb.nbucket)
  have hfind : l.find? (ht.Hit name) = ht.find name := by
    cases hf : l.find? (ht.Hit name) with
    | some j =>
      have hj := hin j (mem_of_find?_eq_some hf)
      have hhit := KernelHt.hit_iff.1 (find?_some hf)
      exact ((KernelHt.find_eq_some_iff hb).2 ⟨hj.1, hj.2, hhit⟩).symm
    | none =>
      refine (KernelHt.find_eq_none_iff.2 fun i hd => ?_).symm
      have := find?_eq_none.1 hf i (hhas i name hd rfl)
      exact this (KernelHt.hit_iff.2 hd.2.2)
  simp only [lookupOne, chainLookup_eq hl (Nat.lt_succ_of_le hlen), hfind, bind_eq_bind, bind_some]
  rfl

/-- The lookup in one table; 0 when there is no such symbol. -/
def KernelHt.valueOf (ht : KernelHt) (name : Name) : Word := ((ht.find name).map ht.moved).getD 0

/-- What a name is found to be: the kernel's definition, else the first value in a module that is
not 0, else 0. -/
def Exports.found (e : Exports) (name : Name) : Word :=
  match e.exportHt.find name with
  | some i => e.exportHt.moved i
  | none => ((e.loadedModules.map (·.valueOf name)).find? (· ≠ 0)).getD 0

theorem lookupModules_eq (hb : ∀ ht ∈ hts, ht.Built) :
    lookupModules name hts = some (((hts.map (·.valueOf name)).find? (· ≠ 0)).getD 0) := by
  induction hts with
  | nil => rfl
  | cons ht hts ih =>
    have hrest := ih fun ht h => hb ht (mem_cons_of_mem _ h)
    have hone : (((ht.find name).map ht.moved).getD 0) = ht.valueOf name := rfl
    simp only [lookupModules, lookupOne_eq (hb ht mem_cons_self) name, bind_eq_bind, bind_some,
      map_cons, find?_cons, hone]
    by_cases h0 : ht.valueOf name = 0
    · rw [if_neg (not_not_intro h0), decide_eq_false (not_not_intro h0)]
      exact hrest
    · rw [if_pos h0, decide_eq_true h0]
      rfl

theorem modloadLookupName_found (hb : e.Built) (name : Name) :
    modloadLookupName e name = some (e.found name) := by
  simp only [modloadLookupName, lookupOne_eq hb.kernel name, bind_eq_bind, bind_some,
    Exports.found, lookupModules_eq hb.modules]
  cases e.exportHt.find name <;> rfl

theorem Exports.isSome_address (h : e.found name ≠ 0) : (e.address name).isSome := by
  rw [Exports.address, findSome?_isSome_iff]
  cases hf : e.exportHt.find name with
  | some i => exact ⟨_, mem_cons_self, by simp [hf]⟩
  | none =>
    simp only [Exports.found, hf] at h
    cases hv : (e.loadedModules.map (·.valueOf name)).find? (· ≠ 0) with
    | none => exact absurd (congrArg (·.getD 0) hv) h
    | some v =>
      obtain ⟨ht, hm, rfl⟩ := mem_map.1 (mem_of_find?_eq_some hv)
      refine ⟨ht, mem_cons_of_mem _ hm, ?_⟩
      cases hn : ht.find name with
      | none => simpa [KernelHt.valueOf, hn] using find?_some hv
      | some i => rfl

/-- In a table that has not been moved, or for a symbol that moves with it, the address found is
the address. -/
theorem KernelHt.moved_eq_address (h : (ht.symtab i).stShndx ≠ shnAbs ∨ ht.baseAdj = 0) :
    ht.moved i = ht.address i := by
  unfold KernelHt.moved KernelHt.address
  split
  · next habs =>
    rw [h.resolve_left (not_not_intro habs)]
    exact BitVec.add_zero _
  · rfl

/-- The definitions that are found: none at address 0, and no absolute ones in moved modules. -/
def KernelHt.Movable (ht : KernelHt) (name : Name) : Prop :=
  ∀ i, ht.find name = some i → ((ht.symtab i).stShndx ≠ shnAbs ∨ ht.baseAdj = 0) ∧ ht.address i ≠ 0

/-- **Symbol lookup.** In tables a linker has built the lookup gives the address of the first
definition of a name, the kernel's before those of modules, and 0 when there is none. -/
theorem modloadLookupName_eq (hb : e.Built) (hm : ∀ ht ∈ e.loadedModules, ht.Movable name) :
    modloadLookupName e name = some ((e.address name).getD 0) := by
  have hmods : ∀ hts : List KernelHt, (∀ ht ∈ hts, ht.Movable name) →
      ((hts.map (·.valueOf name)).find? (· ≠ 0)).getD 0 =
        (hts.findSome? fun ht => (ht.find name).map ht.address).getD 0 := by
    intro hts hm
    induction hts with
    | nil => rfl
    | cons ht hts ih =>
      have hrest := ih fun ht h => hm ht (mem_cons_of_mem _ h)
      rw [map_cons, find?_cons, findSome?_cons, KernelHt.valueOf]
      cases hf : ht.find name with
      | none => simpa using hrest
      | some i =>
        obtain ⟨habs, hne⟩ := hm ht mem_cons_self i hf
        rw [map_some, getD_some, KernelHt.moved_eq_address habs, decide_eq_true hne]
        rfl
  rw [modloadLookupName_found hb, Exports.found, Exports.address, findSome?_cons]
  cases e.exportHt.find name with
  | none => exact congrArg some (hmods _ hm)
  | some i => simp [KernelHt.moved_eq_address (.inr hb.kernelBase)]

end Lookup

/-! ## One relocation -/

/-- For which values of the symbol and which places the loader's value is the right one. -/
def Agree (m : Module) (ed : Edition) (gotOffset : Nat → Word) (r : Rela) (s s' : Word) : Prop :=
  match r.type with
  | .none | .relative | .size32 | .size64 => True
  | .gotoff64 => s + m.baseAdj = s'
  | .got32 => gotOffset r.sym = m.dtPltgot + m.baseAdj
  | .gotpcrel => gotOffset r.sym = 0
  | .gotpc32 => ed = .draft ∨ m.place r + m.place r = 0
  | _ => s = s'

theorem value_eq_iff (hh : r.type.Handled) :
    (m.value r s).map Prod.fst = (m.abi ed gotOffset r s').map Prod.fst ↔
      Agree m ed gotOffset r s s' := by
  unfold Module.value Module.abi Agree RelocType.Handled at *
  generalize r.type = t at *
  cases t <;> simp only [caseValue, abiValue, map_some, map_none, some.injEq]
  all_goals cases ed <;> grind

/-- The fields are those of the types, whatever is stored. -/
theorem field_eq (ed : Edition) (d a b p g z s a' b' p' g' got' z' s' : Word) (t : RelocType) :
    (caseValue d a b p g z s t).map (fun v => v.2.field) =
      (abiValue ed a' b' p' g' got' z' s' t).map Prod.snd := by
  cases t <;> rfl

theorem abi_of_value (hv : m.value r s = some (v, c)) :
    ∃ v', m.abi ed gotOffset r s' = some (v', c.field) := by
  have hf : (m.value r s).map (fun v => v.2.field) = (m.abi ed gotOffset r s').map snd :=
    field_eq ..
  rw [hv] at hf
  obtain ⟨⟨v', f⟩, hv', rfl⟩ := map_eq_some_iff.1 hf.symm
  exact ⟨v', hv'⟩

theorem abi_of_value_none (hv : m.value r s = none) : m.abi ed gotOffset r s' = none := by
  have hf : (m.value r s).map (fun v => v.2.field) = (m.abi ed gotOffset r s').map snd :=
    field_eq ..
  rw [hv] at hf
  exact map_eq_none_iff.1 hf.symm

theorem Common.size_le (c : Common) : c.field.size ≤ 2 ^ 64 := by
  cases c <;> decide

/-- What a relocation stores. -/
def Module.stores (m : Module) (r : Rela) (s : Word) : Option ByteStore :=
  (m.value r s).map fun v => ⟨m.place r, v.2.field.size, v.1⟩

theorem stores_covers {t : ByteStore} (ht : m.stores r s = some t) (a : Word) :
    t.Covers a ↔ m.Covers r a := by
  obtain ⟨⟨v, c⟩, hv, rfl⟩ := map_eq_some_iff.1 ht
  have hf : (m.value r s).map (fun v => v.2.field) =
      (abiValue .final 0 0 0 0 0 0 0 r.type).map snd := field_eq ..
  rw [hv] at hf
  obtain ⟨w, hw, hsize⟩ := map_eq_some_iff.1 hf.symm
  simp only [ByteStore.Covers, Module.Covers, Rela.size, hw, map_some, getD_some, hsize]

/-! ## The loop -/

/-- What the loader takes the value of the symbol to be. -/
def symOf (m : Module) (e : Exports) (r : Rela) : Word :=
  let sym := m.syms r.sym
  if sym.stName ≠ 0 then e.found (m.strs sym.stName) else sym.stValue + m.baseAdj

/-- The named symbol is not found. -/
def Missing (m : Module) (e : Exports) (r : Rela) : Prop :=
  (m.syms r.sym).stName ≠ 0 ∧ symOf m e r = 0

/-- A relocation at which the loader stops: its symbol is not found or its value is cut. -/
def Rejected (m : Module) (e : Exports) (r : Rela) : Prop :=
  Missing m e r ∨ ∃ v c, m.value r (symOf m e r) = some (v, c) ∧ ¬ c.field.Fits v

theorem symValue_eq (hb : e.Built) (r : Rela) : symValue m e r = some (symOf m e r) := by
  unfold symValue symOf
  by_cases hn : (m.syms r.sym).stName ≠ 0
  · simp only [if_pos hn, modloadLookupName_found hb]
  · simp only [if_neg hn]

theorem isSome_abiSymValue (h : ¬ Missing m e r) : (abiSymValue m e r).isSome := by
  simp only [abiSymValue]
  split
  · next hn =>
    refine Exports.isSome_address fun h0 => h ⟨hn, ?_⟩
    simp only [symOf, if_pos hn, h0]
  · split
    · rfl
    · split <;> rfl

theorem applyReloc_of_rejected (hb : e.Built) (h : Rejected m e r) :
    ∃ mem', applyReloc m e mem r = some (.enoexec, mem') := by
  simp only [applyReloc, symValue_eq hb, map_some, some.injEq]
  by_cases hn : (m.syms r.sym).stName ≠ 0 ∧ symOf m e r = 0
  · exact ⟨mem, if_pos hn⟩
  · obtain ⟨v, c, hv, hfit⟩ := h.resolve_left hn
    rw [if_neg hn, hv]
    simp only [if_neg hfit]
    exact ⟨_, rfl⟩

theorem applyReloc_of_not_rejected (hb : e.Built) (h : ¬ Rejected m e r) :
    applyReloc m e mem r = some (.ok, runAll (m.stores r (symOf m e r)).toList mem) := by
  have hn : ¬ ((m.syms r.sym).stName ≠ 0 ∧ symOf m e r = 0) := fun hn => h (.inl hn)
  simp only [applyReloc, symValue_eq hb, map_some, some.injEq, if_neg hn, Module.stores]
  cases hv : m.value r (symOf m e r) with
  | none => rfl
  | some v =>
    have hfit : v.2.field.Fits v.1 := by
      by_contra hno
      exact h (.inr ⟨v.1, v.2, hv, hno⟩)
    simp only [if_pos hfit]
    rfl

theorem applyTable_append (rs rs' : List Rela) : ∀ mem, applyTable m e mem (rs ++ rs') = (do
      let (err, mem) ← applyTable m e mem rs
      if err = .ok then applyTable m e mem rs' else return (err, mem)) := by
  induction rs with
  | nil => exact fun mem => rfl
  | cons r rs ih =>
    intro mem
    simp only [cons_append, applyTable]
    cases applyReloc m e mem r with
    | none => rfl
    | some p =>
      simp only [bind_eq_bind, bind_some]
      split
      · rw [ih]
        rfl
      · next hne => simp [hne]

theorem applyRelocs_eq (mem : ByteMem) : applyRelocs m e mem = applyTable m e mem m.relas :=
  (applyTable_append m.rela m.jmprel mem).symm

theorem applyTable_of_not_rejected (hb : e.Built)
    (h : ∀ r ∈ rs, ¬ Rejected m e r) : ∀ mem, applyTable m e mem rs =
      some (.ok, runAll (rs.filterMap fun r => m.stores r (symOf m e r)) mem) := by
  induction rs with
  | nil => exact fun mem => rfl
  | cons r rs ih =>
    intro mem
    simp only [applyTable, applyReloc_of_not_rejected hb (h r mem_cons_self), bind_eq_bind,
      bind_some, if_true]
    rw [ih fun r hr => h r (mem_cons_of_mem _ hr), filterMap_cons]
    cases m.stores r (symOf m e r) <;> rfl

theorem applyTable_of_rejected (hb : e.Built) (h : ∃ r ∈ rs, Rejected m e r) :
    ∀ mem, ∃ mem', applyTable m e mem rs = some (.enoexec, mem') := by
  induction rs with
  | nil => simp at h
  | cons r rs ih =>
    intro mem
    by_cases hr : Rejected m e r
    · obtain ⟨mem', hmem'⟩ := @applyReloc_of_rejected m e mem r hb hr
      refine ⟨mem', ?_⟩
      simp only [applyTable, hmem', bind_eq_bind, bind_some]
      rfl
    · have hrest := ((exists_mem_cons_iff _ _ _).1 h).resolve_left hr
      simp only [applyTable, applyReloc_of_not_rejected hb hr, bind_eq_bind, bind_some, if_true]
      exact ih hrest _

/-! ## The whole run -/

/-- The symbol is defined and the loader's value is the right one. -/
def Exact (m : Module) (e : Exports) (ed : Edition) (gotOffset : Nat → Word) (r : Rela) : Prop :=
  ∃ s', abiSymValue m e r = some s' ∧ Agree m ed gotOffset r (symOf m e r) s'

/-- The relocations are of the types that are applied, and no two places overlap. -/
structure Plain (m : Module) : Prop where
  handled : ∀ r ∈ m.relas, r.type.Handled
  apart : m.relas.Pairwise fun r r' => ∀ a, m.Covers r a → ¬ m.Covers r' a

theorem Plain.stores_apart (hp : Plain m) :
    (m.relas.filterMap fun r => m.stores r (symOf m e r)).Pairwise Apart := by
  refine pairwise_filterMap.2 (hp.apart.imp ?_)
  intro r r' hab t ht t' ht' a ha
  rw [stores_covers ht] at ha
  rw [stores_covers ht']
  exact hab a ha

theorem Plain.read_back (hp : Plain m) (hr : r ∈ m.relas)
    (hv : m.value r (symOf m e r) = some (v, c)) (hi : i < c.field.size) :
    runAll (m.relas.filterMap fun r => m.stores r (symOf m e r)) mem
      (m.place r + BitVec.ofNat 64 i) = byte v i := by
  have hstore : m.stores r (symOf m e r) = some ⟨m.place r, c.field.size, v⟩ := by
    rw [Module.stores, hv]
    rfl
  have hcov := @ByteStore.covers_add ⟨m.place r, c.field.size, v⟩ i hi c.size_le
  rw [ByteStore.runAll_of_covers hp.stores_apart (mem_filterMap.2 ⟨r, hr, hstore⟩) hcov.1, hcov.2]

/-- Without a rejected relocation, one has been applied exactly when the values agree. -/
theorem applied_iff (hp : Plain m) (hn : ∀ r ∈ m.relas, ¬ Rejected m e r) (hr : r ∈ m.relas) :
    Applied m e ed gotOffset (runAll (m.relas.filterMap fun r => m.stores r (symOf m e r)) mem) r ↔
      Exact m e ed gotOffset r := by
  obtain ⟨s', hs'⟩ := isSome_iff_exists.1 (isSome_abiSymValue fun hm => hn r hr (.inl hm))
  have hexact : Exact m e ed gotOffset r ↔
      (m.value r (symOf m e r)).map fst = (m.abi ed gotOffset r s').map fst := by
    rw [value_eq_iff (hp.handled r hr)]
    refine ⟨?_, fun h => ⟨s', hs', h⟩⟩
    rintro ⟨t', ht', h⟩
    rwa [some.inj (hs'.symm.trans ht')]
  rw [hexact]
  cases hv : m.value r (symOf m e r) with
  | none =>
    rw [abi_of_value_none hv]
    refine iff_of_true ⟨s', hs', fun v f hvf => ?_⟩ rfl
    rw [abi_of_value_none hv] at hvf
    cases hvf
  | some p =>
    obtain ⟨v, c⟩ := p
    obtain ⟨v', hv'⟩ := @abi_of_value m ed gotOffset r _ s' v c hv
    have hfit : c.field.Fits v := by
      by_contra hno
      exact hn r hr (.inr ⟨v, c, hv, hno⟩)
    rw [hv', map_some, map_some, some.injEq]
    constructor
    · rintro ⟨t, ht, happ⟩
      obtain rfl := some.inj (hs'.symm.trans ht)
      obtain ⟨hfit', hbytes⟩ := happ v' c.field hv'
      exact ByteField.eq_of_bytes hfit hfit' fun i hi =>
        (hp.read_back hr hv hi).symm.trans (hbytes i hi)
    · rintro rfl
      refine ⟨s', hs', fun w f hw => ?_⟩
      obtain ⟨rfl, rfl⟩ := mk.inj (some.inj (hv'.symm.trans hw))
      exact ⟨hfit, fun i hi => hp.read_back hr hv hi⟩

theorem relocs_right_iff (hb : e.Built) (hp : Plain m) : Right m e ed gotOffset mem ↔
      (∃ r ∈ m.relas, Rejected m e r) ∨ ∀ r ∈ m.relas, Exact m e ed gotOffset r := by
  by_cases hrej : ∃ r ∈ m.relas, Rejected m e r
  · refine iff_of_true ?_ (.inl hrej)
    obtain ⟨mem', hmem'⟩ := applyTable_of_rejected hb hrej mem
    exact ⟨.enoexec, mem', (applyRelocs_eq mem).trans hmem', fun h => by cases h⟩
  · have hn : ∀ r ∈ m.relas, ¬ Rejected m e r := fun r hr hrj => hrej ⟨r, hr, hrj⟩
    have hrun := (applyRelocs_eq mem).trans (applyTable_of_not_rejected hb hn mem)
    rw [or_iff_right hrej]
    constructor
    · rintro ⟨err, mem', heq, hok⟩ r hr
      obtain ⟨rfl, rfl⟩ := mk.inj (some.inj (hrun.symm.trans heq))
      exact (applied_iff hp hn hr).1 ((hok rfl).1 r hr)
    · intro hex
      refine ⟨.ok, _, hrun, fun _ => ⟨fun r hr => (applied_iff hp hn hr).2 (hex r hr), ?_⟩⟩
      intro a ha
      refine ByteStore.runAll_of_not_covers fun t ht => ?_
      obtain ⟨r, hr, hst⟩ := mem_filterMap.1 ht
      rw [stores_covers hst]
      exact ha r hr

/-- A table of one symbol. -/
def sampleTable (name : UInt8) (value base : Word) : KernelHt where
  hashNbucket := 1
  hashNchain := 2
  hashBuckets _ := 1
  hashChains _ := 0
  symtab i := if i = 1 then ⟨1, 1, value, 0⟩ else ⟨0, 0, 0, 0⟩
  strtab i := if i = 1 then [name] else []
  baseAdj := base

theorem sampleTable_built (name : UInt8) (value base : Word) :
    (sampleTable name value base).Built where
  nbucket := Nat.one_pos
  chains := by
    intro bucket _
    refine ⟨[1], ⟨rfl, rfl⟩, Nat.le_succ 1, by simp [sampleTable], ?_⟩
    rintro i name ⟨h0, h1, -⟩ -
    simp only [sampleTable] at h1
    simp only [mem_singleton]
    omega
  unique := by
    rintro i j name ⟨h0, h1, -⟩ ⟨h2, h3, -⟩
    simp only [sampleTable] at h1 h3
    omega

/-- The kernel exports `a` at 0x5000, and a module that was moved by 0x2000 exports `b`. -/
def sampleExports : Exports where
  exportHt := sampleTable 97 0x5000 0
  loadedModules := [sampleTable 98 0x300 0x2000]

theorem sampleExports_built : sampleExports.Built where
  kernel := sampleTable_built ..
  kernelBase := rfl
  modules := forall_mem_singleton.2 (sampleTable_built ..)

theorem modloadLookupName_sample : sampleExports.address [98] = some 0x2300 ∧
    modloadLookupName sampleExports [98] = some ((sampleExports.address [98]).getD 0) := by
  refine ⟨by decide, modloadLookupName_eq sampleExports_built (forall_mem_singleton.2 ?_)⟩
  intro i hi
  obtain rfl : 1 = i := some.inj ((by decide : some 1 = _).trans hi)
  decide

/-- A module moved by 0x1000. Symbol 1 is `a`, symbol 2 a section of its own. -/
def sampleModule (rela : List Rela) : Module where
  baseAdj := 0x1000
  dtPltgot := 0x200
  syms := fun i => if i = 1 then ⟨1, 0, 0, 0⟩ else if i = 2 then ⟨0, 1, 0x300, 0⟩ else ⟨0, 0, 0, 0⟩
  strs := fun i => if i = 1 then [97] else []
  rela := rela
  jmprel := []

/-- `R_AMD64_64` for `a`, and `R_AMD64_RELATIVE`. -/
def sampleRelas : List Rela := [⟨0, 0x100000001, 4⟩, ⟨8, 8, 0x40⟩]

theorem sampleModule_plain : Plain (sampleModule sampleRelas) where
  handled := by
    decide
  apart := by
    refine pairwise_pair.2 fun a h h' => ?_
    have h1 : (a - 0x1000#64).toNat < 8 := h
    have h2 : (a - 0x1008#64).toNat < 8 := h'
    bv_omega

theorem relocs_right_sample :
    Right (sampleModule sampleRelas) sampleExports .final (fun _ => 0) fun _ => 0 := by
  refine (relocs_right_iff sampleExports_built sampleModule_plain).2 (.inr ?_)
  intro r hr
  have hr : r = ⟨0, 0x100000001, 4⟩ ∨ r = ⟨8, 8, 0x40⟩ := by
    simpa [Module.relas, sampleModule, sampleRelas] using hr
  rcases hr with rfl | rfl
  · exact ⟨0x5000, by decide, show symOf _ sampleExports _ = 0x5000 by decide⟩
  · exact ⟨0, by decide, trivial⟩

/-- `R_AMD64_GOTOFF64` for the section. -/
def gotoffRela : Rela := ⟨0, 0x200000019, 0⟩

/-- The section is at 0x1300 and the table at 0x1200. Stored is 0x1100, the distance from where
the table was linked. -/
theorem gotoff_link_time : sampleExports.Built ∧ Plain (sampleModule [gotoffRela]) ∧
      (applyRelocs (sampleModule [gotoffRela]) sampleExports fun _ => 0).map
        (fun p => (p.1, p.2 0x1000, p.2 0x1001)) = some (.ok, 0x00, 0x11) ∧
      abiSymValue (sampleModule [gotoffRela]) sampleExports gotoffRela = some 0x1300 ∧
      (sampleModule [gotoffRela]).abi .final (fun _ => 0) gotoffRela 0x1300 =
        some (0x100, ⟨8, true⟩) ∧
      ¬ Right (sampleModule [gotoffRela]) sampleExports .final (fun _ => 0) fun _ => 0 := by
  have hrun : (applyRelocs (sampleModule [gotoffRela]) sampleExports fun _ => 0).map
      (fun p => (p.1, p.2 0x1000, p.2 0x1001)) = some (.ok, 0x00, 0x11) := by decide
  have hsym : abiSymValue (sampleModule [gotoffRela]) sampleExports gotoffRela = some 0x1300 := by
    decide
  have habi : (sampleModule [gotoffRela]).abi .final (fun _ => 0) gotoffRela 0x1300 =
      some (0x100, ⟨8, true⟩) := by decide
  refine ⟨sampleExports_built, ⟨by decide, ?_⟩, hrun, hsym, habi, ?_⟩
  · exact pairwise_singleton _ _
  · rintro ⟨err, mem', heq, hok⟩
    rw [heq, map_some, some.injEq, mk.injEq, mk.injEq] at hrun
    obtain ⟨s, hs, happ⟩ := (hok hrun.1).1 gotoffRela mem_cons_self
    obtain rfl := some.inj (hsym.symm.trans hs)
    have hbyte := (happ _ _ habi).2 1 (by decide)
    have hplace : (sampleModule [gotoffRela]).place gotoffRela + BitVec.ofNat 64 1 = 0x1001 := by
      decide
    have hstored : mem' 0x1001 = 0x11 := hrun.2.2
    rw [hplace, hstored] at hbyte
    exact absurd hbyte (by decide)

end Dgos.L4.ElfReloc
