import Dgos.L3Files.Fat32Dir

/-!
# The entries of a name

What `dirents_from_name` makes of a name, as far as `search_dir` compares it.

Results:
* `direntsFromUnits_entries`: the long entries hold the units of the name, or there are none and
  the short name is printable.
* `entries_inj`: names with the same long entries are the same.
* `direntsFromName_eq`: the entries of a name, wherever it is in memory.
-/
namespace Dgos.L3.Fat32

open Dgos.L1 List Nat Utf UInt8
open Nat (mod_lt zero_le)

/-! ## The long entries -/

/-- The two bytes for the unit at `o`: behind the name a terminator, and then filling. -/
def unitBytes (lfn : List Nat) (o : Nat) : List UInt8 :=
  if o ≤ lfn.length then word (lfn.getD o 0) else [0xFF, 0xFF]

/-- The fragment with the unit at `o`. The last part of the name comes first. -/
def fragOf (count o : Nat) : Nat := 32 * (count - 1 - o / 13)

@[simp] theorem length_unitBytes (lfn : List Nat) (o : Nat) : (unitBytes lfn o).length = 2 := by
  rw [unitBytes]
  split <;> rfl

theorem unitDest_cases {k : Nat} (hk : k < 13) :
    k < 5 ∧ unitDest k = 1 + 2 * k ∨ 5 ≤ k ∧ k < 11 ∧ unitDest k = 14 + 2 * (k - 5) ∨
      11 ≤ k ∧ unitDest k = 28 + 2 * (k - 11) := by
  simp only [unitDest, shiftLeft_eq, pow_one]
  split
  · omega
  split <;> omega

/-- What the loop does from the unit at `ofs` on. -/
structure Filled (lfn : List Nat) (count ofs : Nat) (m m' : Buf) : Prop where
  unit : ∀ o, ofs ≤ o → o < 13 * count →
    peek m' (fragOf count o + unitDest (o % 13)) 2 = unitBytes lfn o
  attr : ∀ o, ofs ≤ o → o < 13 * count → o % 13 = 0 → m' (fragOf count o + 11) = 0x0F
  before : ∀ o, o < ofs → o < 13 * count → ∀ i < 2,
    m' (fragOf count o + unitDest (o % 13) + i) = m (fragOf count o + unitDest (o % 13) + i)
  attr_before : ∀ o, o < ofs → o < 13 * count → m' (fragOf count o + 11) = m (fragOf count o + 11)
  behind : ∀ a, 32 * count ≤ a → m' a = m a

/-- One turn of the loop. -/
def fillStep (lfn : List Nat) (count ofs : Nat) (m : Buf) : Buf :=
  poke (if ofs % 13 = 0 then poke m (fragOf count ofs + 11) [0x0F] else m)
    (fragOf count ofs + unitDest (ofs % 13)) (unitBytes lfn ofs)

variable {a i count ofs o : Nat} {m m' : Buf}

section Fill

variable {lfn : List Nat}

theorem fillStep_unit (hi : i < 2) :
    fillStep lfn count ofs m (fragOf count ofs + unitDest (ofs % 13) + i) =
      (unitBytes lfn ofs).getD i 0 :=
  poke_inside (by rw [length_unitBytes]; exact hi)

theorem fillStep_other (hunit : a < fragOf count ofs + unitDest (ofs % 13) ∨
      fragOf count ofs + unitDest (ofs % 13) + 2 ≤ a)
    (hattr : ofs % 13 = 0 → a ≠ fragOf count ofs + 11) : fillStep lfn count ofs m a = m a := by
  rw [fillStep, poke_outside (by rw [length_unitBytes]; exact hunit)]
  split
  · next h0 =>
    exact poke_outside (by simp only [length_singleton]; omega)
  · rfl

theorem fillStep_attr (h : ofs % 13 = 0) :
    fillStep lfn count ofs m (fragOf count ofs + 11) = 0x0F := by
  rw [fillStep, poke_outside, if_pos h]
  · exact poke_inside (i := 0) (by decide)
  · rw [h, length_unitBytes, show unitDest 0 = 1 from rfl]
    exact .inr (by omega)

/-- The units of a name are at different places, and the attributes at others. -/
theorem fillStep_before (lfn : List Nat) (m : Buf) (hlt : o < ofs) (hofs : ofs < 13 * count) :
    (∀ i < 2, fillStep lfn count ofs m (fragOf count o + unitDest (o % 13) + i) =
      m (fragOf count o + unitDest (o % 13) + i)) ∧
    fillStep lfn count ofs m (fragOf count o + 11) = m (fragOf count o + 11) := by
  have h1 := unitDest_cases (mod_lt o (show 13 > 0 by decide))
  have h2 := unitDest_cases (mod_lt ofs (show 13 > 0 by decide))
  refine ⟨fun i hi => fillStep_other ?_ ?_, fillStep_other ?_ ?_⟩
  all_goals
    simp only [fragOf]
    omega

theorem Filled.refl (h : 13 * count ≤ ofs) (m : Buf) : Filled lfn count ofs m m where
  unit := by omega
  attr := by omega
  before _ _ _ _ _ := rfl
  attr_before _ _ _ := rfl
  behind _ _ := rfl

theorem Filled.step (hofs : ofs < 13 * count)
    (h : Filled lfn count (ofs + 1) (fillStep lfn count ofs m) m') : Filled lfn count ofs m m' where
  unit o hle hlt := by
    rcases lt_or_eq_of_le hle with hlt' | rfl
    · exact h.unit o hlt' hlt
    apply ext_getElem
    · rw [peek_length, length_unitBytes]
    · intro i hi hi'
      rw [← getD_eq_getElem _ 0 hi', ← fillStep_unit hi, ← h.before ofs (lt_succ_self ofs) hlt i hi]
      simp [peek]
  attr o hle hlt h0 := by
    rcases lt_or_eq_of_le hle with hlt' | rfl
    · exact h.attr o hlt' hlt h0
    · rw [h.attr_before ofs (lt_succ_self ofs) hlt, fillStep_attr h0]
  before o hlt hlt' i hi := by
    rw [h.before o (lt_succ_of_lt hlt) hlt' i hi, (fillStep_before lfn m hlt hofs).1 i hi]
  attr_before o hlt hlt' := by
    rw [h.attr_before o (lt_succ_of_lt hlt) hlt', (fillStep_before lfn m hlt hofs).2]
  behind a ha := by
    rw [h.behind a ha]
    have := unitDest_cases (mod_lt ofs (show 13 > 0 by decide))
    apply fillStep_other <;> simp only [fragOf] <;> omega

theorem fillFragments_filled (hcount : count = (lfn.length + 12) / 13) (fuel ofs : Nat) (m : Buf)
    (hofs : ofs ≤ 13 * count) (hfuel : 13 * count - ofs ≤ fuel) :
    Filled lfn count ofs m (fillFragments lfn fuel ofs (ofs % 13) (fragOf count ofs) m) := by
  induction fuel generalizing ofs m with
  | zero => exact .refl (by omega) m
  | succ fuel ih =>
    rw [fillFragments]
    by_cases hend : ofs = 13 * count
    · rw [if_neg (by omega)]
      exact .refl (by omega) m
    rw [if_pos (by omega)]
    apply Filled.step (by omega)
    have hrec := ih (ofs + 1) (fillStep lfn count ofs m) (by omega) (by omega)
    by_cases hlast : ofs % 13 + 1 = 13
    · rw [if_pos hlast]
      rwa [show (ofs + 1) % 13 = 0 by omega,
        show fragOf count (ofs + 1) = fragOf count ofs - 32 by simp only [fragOf]; omega] at hrec
    · rw [if_neg hlast]
      rwa [show (ofs + 1) % 13 = ofs % 13 + 1 by omega,
        show fragOf count (ofs + 1) = fragOf count ofs by simp only [fragOf]; omega] at hrec

end Fill

/-! ## The short entry -/

/-- A byte of a short name. -/
def Printable (b : UInt8) : Prop := 0x20 ≤ b.toNat ∧ b.toNat < 0x7F

instance (b : UInt8) : Decidable (Printable b) := by unfold Printable; infer_instance

theorem convDosChar_fst (c : Nat) (flags : CaseFlags) :
    (convDosChar c flags).1 = 0 ∨ 0x20 ≤ (convDosChar c flags).1 ∧ (convDosChar c flags).1 < 0x7F := by
  simp only [convDosChar]
  split
  · omega
  split
  · omega
  split
  · omega
  · exact .inl rfl

/-- The conversion of a part of the name writes characters, and only within its room. -/
theorem fcbPart_cases (lfn : List Nat) (stop room i out : Nat) (flags : CaseFlags) (m : Buf)
    (a : Nat) : (fcbPart lfn stop room i out flags m).2.2 a = m a ∨ (out ≤ a ∧ a < out + room ∧
      Printable ((fcbPart lfn stop room i out flags m).2.2 a)) := by
  induction room generalizing i out flags m with
  | zero => exact .inl rfl
  | succ room ih =>
    rw [fcbPart]
    split
    · rcases ih (i + 1) (out + 1) (convDosChar (lfn.getD i 0) flags).2 (poke m out
        [ofNat (if (convDosChar (lfn.getD i 0) flags).1 ≠ 0 then
          (convDosChar (lfn.getD i 0) flags).1 else 0x5F)]) with h | ⟨h1, h2, h3⟩
      · rw [h]
        by_cases ha : a = out
        · subst ha
          have hc := convDosChar_fst (lfn.getD i 0) flags
          rw [poke, if_pos (by simp), Nat.sub_self, getD_cons_zero, Printable, toNat_ofNat']
          split <;> omega
        · exact .inl (poke_outside (by simp only [length_singleton]; omega))
      · exact .inr ⟨by omega, by omega, h3⟩
    · exact .inl rfl

theorem markLower_other (m : Buf) (fcbfrag : Nat) (flags : CaseFlags) (bit : UInt8)
    (h : a ≠ fcbfrag + 12) : markLower m fcbfrag flags bit a = m a := by
  rw [markLower]
  split
  · exact poke_outside (by simp only [length_singleton]; omega)
  · rfl

/-- Only the short entry is written, and its name consists of characters. -/
theorem fcbFields_cases (m : Buf) (fcbname : Nat) (lfn : List Nat) (a : Nat) :
    (fcbname ≤ a ∧ a < fcbname + 11 → Printable ((fcbFields m fcbname lfn).1 a)) ∧
      (a < fcbname ∨ fcbname + 13 ≤ a → (fcbFields m fcbname lfn).1 a = m a) := by
  simp only [fcbFields]
  constructor
  · intro ha
    rw [markLower_other _ _ _ _ (by omega)]
    rcases fcbPart_cases lfn lfn.length 3 _ (fcbname + 8) _ _ a with h | ⟨-, -, h⟩
    · rw [h, markLower_other _ _ _ _ (by omega)]
      rcases fcbPart_cases lfn _ 8 0 fcbname _ (poke m fcbname (replicate 11 0x20)) a with
        h' | ⟨-, -, h'⟩
      · rw [h', poke, if_pos (by rw [length_replicate]; omega), getD_replicate _ (by omega)]
        decide
      · exact h'
    · exact h
  · intro ha
    rw [markLower_other _ _ _ _ (by omega)]
    rcases fcbPart_cases lfn lfn.length 3 _ (fcbname + 8) _ _ a with h | ⟨h, h', -⟩
    · rw [h, markLower_other _ _ _ _ (by omega)]
      rcases fcbPart_cases lfn _ 8 0 fcbname _ (poke m fcbname (replicate 11 0x20)) a with
        h' | ⟨h, h', -⟩
      · rw [h', poke_outside (by rw [length_replicate]; omega)]
      · omega
    · omega

/-! ## All entries of a name -/

variable {n : Nat}

theorem putEach_at (k : Nat) (byte : Nat → UInt8) (hi : i < n) (m : Buf) :
    putEach k byte n m (32 * i + k) = byte i := by
  induction n with
  | zero => cases hi
  | succ n ih =>
    rw [putEach]
    rcases Nat.lt_succ_iff_lt_or_eq.mp hi with hlt | rfl
    · rw [poke_outside (by omega), ih hlt]
    · exact poke_inside (i := 0) Nat.one_pos

theorem putEach_other (k : Nat) (byte : Nat → UInt8) (h : ∀ i < n, a ≠ 32 * i + k)
    (m : Buf) : putEach k byte n m a = m a := by
  induction n with
  | zero => rfl
  | succ n ih =>
    have := h n (lt_succ_self n)
    rw [putEach, poke_outside (by simp only [length_singleton]; omega),
      ih fun i hi => h i (lt_succ_of_lt hi)]

/-- The entries of the name with these units, as far as they get compared. -/
structure Entries (units : List Nat) (m : Buf) (count : Nat) : Prop where
  count_le : count ≤ 20
  ordinals : ∀ i < count, m (32 * i) = ordinal count i
  attr : ∀ i < count, m (32 * i + 11) = 0x0F
  printable : ∀ j < 11, Printable (m (32 * count + j))
  count_eq : count ≠ 0 → count = (units.length + 12) / 13
  unit : ∀ o < 13 * count, peek m (fragOf count o + unitDest (o % 13)) 2 = unitBytes units o

abbrev FullLfn.Spells (lfn : FullLfn) (units : List Nat) : Prop :=
  Entries units lfn.fragments lfn.lfnEntryCount

/-- The fragments before the checksums and ordinals are put in. -/
theorem fcbnameFromLfn_cases (full : FullLfn) (lfn : List Nat) :
    (∀ j < 11, Printable ((fcbnameFromLfn full lfn).fragments
      (32 * (fcbnameFromLfn full lfn).lfnEntryCount + j))) ∧
    ((fcbnameFromLfn full lfn).lfnEntryCount = 0 ∨
      (fcbnameFromLfn full lfn).lfnEntryCount = full.lfnEntryCount ∧
        ∀ a < 32 * full.lfnEntryCount, (fcbnameFromLfn full lfn).fragments a = full.fragments a) := by
  have hcases := fcbFields_cases full.fragments (32 * full.lfnEntryCount) lfn
  simp only [fcbnameFromLfn]
  split
  · refine ⟨fun j hj => ?_, .inl rfl⟩
    dsimp only
    rw [poke_inside (by rw [peek_length]; omega), getD_peek _ _ (by omega)]
    exact (hcases _).1 (by omega)
  · exact ⟨fun j hj => (hcases _).1 (by simp only; omega), .inr ⟨rfl, fun a ha => (hcases a).2 (.inl ha)⟩⟩

theorem direntsFromUnits_entries {units : List Nat} (hlen : units.length < 256) :
    Entries units (direntsFromUnits units).fragments (direntsFromUnits units).lfnEntryCount := by
  have hfill : Filled units ((units.length + 12) / 13) 0 (fun _ => 0) (fillFragments units
      (units.length + 13) 0 0 (32 * ((units.length + 12) / 13 - 1)) fun _ => 0) :=
    fillFragments_filled rfl (units.length + 13) 0 _ (zero_le _) (by omega)
  obtain ⟨hprint, hcases⟩ := fcbnameFromLfn_cases
    ⟨fillFragments units (units.length + 13) 0 0 (32 * ((units.length + 12) / 13 - 1)) fun _ => 0,
      (units.length + 12) / 13⟩ units
  rw [direntsFromUnits]
  generalize fcbnameFromLfn _ units = full at hprint hcases
  generalize lfnChecksum full.fragments _ = checksum
  obtain ⟨m, count⟩ := full
  simp only at hcases ⊢
  have hord : ∀ i < count, putOrdinals count (putChecksums checksum count m) (32 * i) =
    ordinal count i := fun i hi => putEach_at 0 _ hi _
  -- the checksums and ordinals are neither in the short name nor among the units
  have hother : ∀ a, (∀ i < count, a ≠ 32 * i + 13) → (∀ i < count, a ≠ 32 * i) →
      putOrdinals count (putChecksums checksum count m) a = m a := by
    intro a h13 h0
    rw [putOrdinals, putEach_other _ _ h0, putChecksums, putEach_other _ _ h13]
  generalize putOrdinals count (putChecksums checksum count m) = m' at hord hother
  have hprint' : ∀ j < 11, Printable (m' (32 * count + j)) := by
    intro j hj
    rw [hother _ (by omega) (by omega)]
    exact hprint j hj
  rcases hcases with rfl | ⟨rfl, hsame⟩
  · exact ⟨by omega, hord, by omega, hprint', absurd rfl, by omega⟩
  refine ⟨by omega, hord, fun i hi => ?_, hprint', fun _ => rfl, fun o ho => ?_⟩
  · rw [hother _ (by omega) (by omega), hsame _ (by omega)]
    have hattr := hfill.attr (13 * ((units.length + 12) / 13 - 1 - i)) (zero_le _) (by omega)
      (by omega)
    rwa [fragOf, Nat.mul_div_cancel_left _ (by decide), Nat.sub_sub_self (by omega)] at hattr
  · have hd := unitDest_cases (mod_lt o (show 13 > 0 by decide))
    rw [← hfill.unit o (zero_le o) ho, peek_eq_peek_iff]
    intro i hi
    rw [hother _ (by simp only [fragOf]; omega) (by simp only [fragOf]; omega),
      hsame _ (by simp only [fragOf]; omega)]

/-! ## Different names have different entries -/

/-- The units of a name. -/
def IsUnits (units : List Nat) : Prop := ∀ u ∈ units, 0 < u ∧ u < 2 ^ 16

theorem word_inj {b : Nat} (ha : a < 2 ^ 16) (hb : b < 2 ^ 16) (h : word a = word b) : a = b := by
  simp only [word, cons.injEq, and_true] at h
  have h1 := congrArg toNat h.1
  have h2 := congrArg toNat h.2
  simp only [toNat_ofNat'] at h1 h2
  omega

theorem unitBytes_lt {units : List Nat} (h : o < units.length) :
    unitBytes units o = word units[o] := by
  rw [unitBytes, if_pos (le_of_lt h), getD_eq_getElem _ _ h]

theorem unitBytes_length (units : List Nat) : unitBytes units units.length = word 0 := by
  rw [unitBytes, if_pos le_rfl, getD_eq_default _ _ le_rfl]

section Injective

variable {u u' : List Nat}

/-- A longer name has a unit where the shorter one has its terminator. -/
theorem length_le_of_unitBytes (hu' : IsUnits u')
    (h : u.length < u'.length → unitBytes u u.length = unitBytes u' u.length) :
    u'.length ≤ u.length := by
  by_contra hlt
  have hlt' : u.length < u'.length := by omega
  have heq := h hlt'
  rw [unitBytes_length, unitBytes_lt hlt'] at heq
  have hunit := hu' _ (getElem_mem hlt')
  have := word_inj (by decide) hunit.2 heq
  omega

theorem units_eq_of_unitBytes (hu : IsUnits u) (hu' : IsUnits u') (hn : u.length ≤ n)
    (hn' : u'.length ≤ n) (h : ∀ o < n, unitBytes u o = unitBytes u' o) : u = u' := by
  have hlen : u.length = u'.length := le_antisymm
    (length_le_of_unitBytes hu fun hlt => (h _ (by omega)).symm)
    (length_le_of_unitBytes hu' fun hlt => h _ (by omega))
  apply ext_getElem hlen
  intro o ho ho'
  have heq := h o (by omega)
  rw [unitBytes_lt ho, unitBytes_lt ho'] at heq
  exact word_inj (hu _ (getElem_mem ho)).2 (hu' _ (getElem_mem ho')).2 heq

/-- Where two long entries that compare equal have their units. -/
theorem sameFragment_unit {m m' : Buf} {le de : Nat} (h : sameFragment m le m' de = true) {k : Nat}
    (hk : k < 13) : peek m (le + unitDest k) 2 = peek m' (de + unitDest k) 2 := by
  simp only [sameFragment, decide_eq_true_eq, peek_eq_peek_iff] at h
  obtain ⟨-, h1, h2, h3⟩ := h
  rw [peek_eq_peek_iff]
  intro i hi
  simp only [add_assoc] at h1 h2 h3 ⊢
  rcases unitDest_cases hk with ⟨hk, hd⟩ | ⟨hk, hk', hd⟩ | ⟨hk, hd⟩
  · have := h1 (2 * k + i) (by omega)
    rwa [hd, add_assoc]
  · have := h2 (2 * (k - 5) + i) (by omega)
    rwa [hd, add_assoc]
  · have := h3 (2 * (k - 11) + i) (by omega)
    rwa [hd, add_assoc]

theorem entries_inj (h : Entries u m count) (h' : Entries u' m' count)
    (hu : IsUnits u) (hu' : IsUnits u') (hne : count ≠ 0)
    (hsame : ∀ i < count, sameFragment m (32 * i) m' (32 * i) = true) : u = u' := by
  have hcount := h.count_eq hne
  have hcount' := h'.count_eq hne
  apply units_eq_of_unitBytes hu hu' (n := 13 * count) (by omega) (by omega)
  intro o ho
  rw [← h.unit o ho, ← h'.unit o ho]
  exact sameFragment_unit (hsame _ (by omega)) (mod_lt o (by decide))

end Injective

/-! ## Names -/

/-- The characters of a text in UTF-8. -/
def utf8 (cs : List Utf.Scalar) : List UInt8 :=
  cs.flatMap fun c => String.utf8EncodeChar (Char.ofNatAux c.val c.valid)

/-- The name of a file: any characters but the terminator and the slash. -/
structure Name where
  chars : List Utf.Scalar
  ne_nil : chars ≠ []
  no_slash : ∀ c ∈ chars, c.val ≠ 0x2F
  fits : (chars.flatMap Utf.units).length < 256

namespace Name

def units (n : Name) : List Nat := n.chars.flatMap Utf.units

def bytes (n : Name) : List UInt8 := utf8 n.chars

/-- The entries that are compared with those of a directory. -/
def lfn (n : Name) : FullLfn := direntsFromUnits n.units

theorem isUnits (n : Name) : IsUnits n.units := by
  intro u hu
  obtain ⟨c, -, hc⟩ := mem_flatMap.mp hu
  exact Utf.units_bounds c u hc

theorem ext_units {n n' : Name} (h : n.units = n'.units) : n = n' := by
  obtain ⟨cs, _, _, _⟩ := n
  obtain ⟨cs', _, _, _⟩ := n'
  obtain rfl : cs = cs' := Utf.flatMap_units_inj h
  rfl

end Name

theorem length_le_utf8 (cs : List Scalar) : cs.length ≤ (utf8 cs).length := by
  induction cs with
  | nil => exact le_refl 0
  | cons c cs ih =>
    have := length_pos_of_ne_nil (String.utf8EncodeChar_ne_nil (c := Char.ofNatAux c.val c.valid))
    rw [utf8, flatMap_cons, length_append, length_cons, ← utf8]
    omega

theorem utf8_cons (c : Scalar) (cs : List Scalar) :
    utf8 (c :: cs) = String.utf8EncodeChar (Char.ofNatAux c.val c.valid) ++ utf8 cs := rfl

/-- The units of a text, wherever it is in memory. -/
theorem utf16From_utf8 {cs : List Scalar} (hne : cs ≠ []) {text : Buf} {p fuel : Nat}
    (h : peek text p (utf8 cs).length = utf8 cs) (hfuel : cs.length ≤ fuel) :
    utf16From text (p + (utf8 cs).length) fuel p = cs.flatMap Utf.units := by
  induction cs generalizing p fuel with
  | nil => exact absurd rfl hne
  | cons c cs ih =>
    rw [length_cons] at hfuel
    obtain _ | fuel := fuel
    · omega
    rw [utf8_cons, length_append, peek_add] at h
    obtain ⟨hc, hcs⟩ := append_inj h (by rw [peek_length])
    rw [utf16From, Utf8.utf8ToUcs4Upd_encode hc, utf8_cons, length_append, ← add_assoc]
    refine congrArg (Utf.units c ++ ·) ?_
    by_cases hnil : cs = []
    · subst hnil
      rw [if_neg (by simp [utf8])]
      rfl
    · have := length_le_utf8 cs
      have := length_pos_of_ne_nil hnil
      rw [if_pos (by omega)]
      exact ih hnil hcs (by omega)

/-- A pointer to a name and its length, as the functions get them. -/
structure NameArg where
  name : Name
  text : Buf
  pos : Nat
  spelled : peek text pos name.bytes.length = name.bytes

theorem direntsFromName_eq (a : NameArg) :
    direntsFromName a.text a.pos a.name.bytes.length = .ok a.name.lfn := by
  have hunits := utf16From_utf8 a.name.ne_nil a.spelled
    (le_succ_of_le (length_le_utf8 a.name.chars))
  have hfits := a.name.fits
  rw [direntsFromName, Name.bytes, hunits, if_neg (by omega)]
  rfl

theorem Name.entries (n : Name) : Entries n.units n.lfn.fragments n.lfn.lfnEntryCount :=
  direntsFromUnits_entries n.fits

end Dgos.L3.Fat32
