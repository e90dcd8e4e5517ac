import Dgos.Core.Visit
import Dgos.L3Files.Fat32Names

/-!
# Searching before and after new entries are written

`search_dir` goes through the entries of a directory one after the other. Here the directory is
the list of its entries, and some of them that were free are overwritten with the entries of a new
name.

A long entry that is in use and has no entry in use behind it would be a problem: the search could
be in the middle of a name when it gets to the new entries. The format does not have that: behind
the long entries comes the short one.

Results:
* `visit_new`: the search for the new name ends at the new short entry.
* `visit_other`: the search for another name passes over the new entries, unless it is for a short
  name that the new short entry happens to have.
-/
namespace Dgos.L3.Fat32

open List Bool Nat

/-! ## One entry -/

/-- An entry that holds a part of a long name. -/
def LiveLong (dev : Buf) (de : Nat) : Prop := dev (de + 11) = 0x0F ∧ isDirentFree dev de = false

/-- No fragment of a name begins like a free entry, and only the first one has the mark. -/
theorem ordinal_spec : ∀ count < 21, ∀ i < count,
    ordinal count i ≠ 0 ∧ ordinal count i ≠ 0xE5 ∧ (0x40 ≤ (ordinal count i).toNat ↔ i = 0) := by
  decide +kernel

theorem ordinal_zero_inj : ∀ count < 21, ∀ count' < 21, ordinal count 0 = ordinal count' 0 →
    count = count' := by
  decide +kernel

variable {lfn lfn' : FullLfn} {units units' : List Nat} {dev dev' : Buf} {pre post : List Nat}
  {ins de j i : Nat} {s t : SearchSt} (hlfn : lfn.Spells units)

theorem searchCallback_congr (h : ∀ j < 32, dev (de + j) = dev' (de + j)) (s : SearchSt) :
    searchCallback lfn dev s de = searchCallback lfn dev' s de := by
  have hpeek : ∀ o n, o + n ≤ 32 → peek dev (de + o) n = peek dev' (de + o) n := by
    intro o n hle
    rw [peek_eq_peek_iff]
    intro i hi
    rw [add_assoc]
    exact h _ (by omega)
  have hname : peek dev de 11 = peek dev' de 11 := hpeek 0 11 (by omega)
  have h0 : dev de = dev' de := h 0 (by omega)
  have hsame : ∀ le, sameFragment lfn.fragments le dev de = sameFragment lfn.fragments le dev' de := by
    intro le
    rw [sameFragment, sameFragment, hpeek 1 10 (by omega), hpeek 14 12 (by omega),
      hpeek 28 4 (by omega), h0]
  rw [searchCallback, searchCallback, lfnChecksum, lfnChecksum, h 11 (by omega), h 13 (by omega),
    hname, hsame]

theorem isDirentFree_iff : isDirentFree dev de = true ↔ dev de = 0 ∨ dev de = 0xE5 := by
  rw [isDirentFree, decide_eq_true_iff]

/-- A short name does not begin like a free entry. -/
theorem free_ne_printable {b : UInt8} (hfree : isDirentFree dev de = true) (hb : Printable b) :
    dev de ≠ b := by
  intro heq
  obtain ⟨hge, hlt⟩ := hb
  rcases isDirentFree_iff.mp hfree with h | h <;>
  · rw [← heq, h] at hge hlt
    revert hge hlt
    decide

section

include hlfn

/-- Neither does a fragment. -/
theorem free_not_same (hfree : isDirentFree dev de = true) (hi : i < lfn.lfnEntryCount) :
    sameFragment lfn.fragments (32 * i) dev de = false := by
  rw [← not_eq_true, sameFragment, decide_eq_true_iff]
  intro hsame
  have hord := ordinal_spec _ (lt_succ_of_le hlfn.count_le) i hi
  rw [← hlfn.ordinals i hi, hsame.1] at hord
  rcases isDirentFree_iff.mp hfree with h | h
  · exact hord.1 h
  · exact hord.2.1 h

/-- Only a long entry in use leaves the search in the middle of a name. -/
theorem searchCallback_idle
    (hlong : ¬ LiveLong dev de) (hgo : (searchCallback lfn dev s de).1 = true) :
    (searchCallback lfn dev s de).2.matchIndex = 0 := by
  revert hgo
  rw [searchCallback]
  split
  · exact fun _ => rfl
  split
  · split
    · exact fun h => absurd h false_ne_true
    split
    · exact fun h => absurd h false_ne_true
    · exact fun _ => rfl
  split
  · next hattr hidx =>
    have hfree : isDirentFree dev de = true := by
      by_contra hused
      exact hlong ⟨not_not.mp hattr, Bool.eq_false_iff.mpr hused⟩
    rw [free_not_same hlfn hfree hidx]
    exact fun _ => rfl
  · exact fun _ => rfl

/-- A free entry does not concern a search that is not in the middle of a name. -/
theorem searchCallback_free (hfree : isDirentFree dev de = true) (hs : s.matchIndex = 0) :
    searchCallback lfn dev s de = (true, s) := by
  have hreset : ({ s with matchIndex := 0 } : SearchSt) = s := by rw [← hs]
  rw [searchCallback, hreset]
  split
  · rfl
  split
  · rw [if_neg, if_neg (by omega)]
    intro hshort
    have hprint := hlfn.printable 0 (by decide)
    rw [hshort.1, ← peek_eq_peek_iff.mp hshort.2 0 (by decide)] at hprint
    exact free_ne_printable hfree hprint rfl
  split
  · next hidx =>
    rw [free_not_same hlfn hfree hidx, if_neg Bool.false_ne_true]
  · rfl

end

/-- Two searches that are equally far. The checksum matters only in the middle of a name. -/
structure InStep (s s' : SearchSt) : Prop where
  matchIndex : s.matchIndex = s'.matchIndex
  result : s.result = s'.result
  lastChecksum : s.matchIndex ≠ 0 → s.lastChecksum = s'.lastChecksum

theorem searchCallback_inStep {s' : SearchSt} (h : InStep s s') :
    (searchCallback lfn dev s de).1 = (searchCallback lfn dev s' de).1 ∧
      InStep (searchCallback lfn dev s de).2 (searchCallback lfn dev s' de).2 := by
  obtain ⟨mi, cs, r⟩ := s
  obtain ⟨mi', cs', r'⟩ := s'
  obtain ⟨rfl, rfl, hcs⟩ := h
  simp only at hcs
  have hidle : ∀ a b, InStep ⟨0, a, r⟩ ⟨0, b, r⟩ := fun a b => ⟨rfl, rfl, absurd rfl⟩
  simp only [searchCallback]
  split
  · exact ⟨rfl, hidle cs cs'⟩
  split
  · split
    · exact ⟨rfl, ⟨rfl, rfl, hcs⟩⟩
    · by_cases hfull : lfn.lfnEntryCount ≠ 0 ∧ mi = lfn.lfnEntryCount
      · obtain ⟨hne, rfl⟩ := hfull
        rw [hcs hne]
        split
        · exact ⟨rfl, ⟨rfl, rfl, fun _ => rfl⟩⟩
        · exact ⟨rfl, hidle cs' cs'⟩
      · rw [if_neg (fun h => hfull ⟨h.1, h.2.1⟩), if_neg (fun h => hfull ⟨h.1, h.2.1⟩)]
        exact ⟨rfl, hidle cs cs'⟩
  split
  · split
    · exact ⟨rfl, ⟨rfl, rfl, fun _ => rfl⟩⟩
    · exact ⟨rfl, hidle cs cs'⟩
  · exact ⟨rfl, hidle cs cs'⟩

/-! ## The entries of a directory -/

/-- `n` entries one behind the other. -/
def slots (p n : Nat) : List Nat := (List.range n).map fun i => p + 32 * i

theorem slots_succ (p n : Nat) : slots p (n + 1) = slots p n ++ [p + 32 * n] := by
  rw [slots, range_succ, map_append]
  rfl

theorem slots_add (p n k : Nat) : slots p (n + k) = slots p n ++ slots (p + 32 * n) k := by
  rw [slots, range_add, map_append, map_map]
  refine congrArg (_ ++ ·) (map_congr_left ?_)
  simp only [Function.comp_apply]
  omega

theorem mem_slots {p n de : Nat} : de ∈ slots p n ↔ ∃ i < n, de = p + 32 * i := by
  simp only [slots, mem_map, mem_range]
  constructor
  · rintro ⟨i, hi, rfl⟩
    exact ⟨i, hi, rfl⟩
  · rintro ⟨i, hi, rfl⟩
    exact ⟨i, hi, rfl⟩

/-- The entries of a name, with another short name, are at `ins`. -/
structure Stored (lfn : FullLfn) (dev : Buf) (ins : Nat) : Prop where
  same : ∀ i < lfn.lfnEntryCount, sameFragment lfn.fragments (32 * i) dev (ins + 32 * i) = true
  attr : ∀ i < lfn.lfnEntryCount, dev (ins + 32 * i + 11) = 0x0F
  checksum : ∀ i < lfn.lfnEntryCount,
    dev (ins + 32 * i + 13) = lfnChecksum dev (ins + 32 * lfn.lfnEntryCount)
  short_attr : dev (ins + 32 * lfn.lfnEntryCount + 11) ≠ 0 ∧
    dev (ins + 32 * lfn.lfnEntryCount + 11) ≠ 0x0F

/-- A long entry is the next one of the name, or the search begins again. -/
theorem searchCallback_long (lfn : FullLfn) (s : SearchSt) (hattr : dev (de + 11) = 0x0F) :
    (s.matchIndex < lfn.lfnEntryCount ∧
      sameFragment lfn.fragments (32 * s.matchIndex) dev de = true ∧
      searchCallback lfn dev s de =
        (true, { s with lastChecksum := dev (de + 13), matchIndex := s.matchIndex + 1 })) ∨
    searchCallback lfn dev s de = (true, { s with matchIndex := 0 }) := by
  rw [searchCallback, hattr, if_neg (by decide), if_neg (fun h => h rfl)]
  split
  · next hlt =>
    split
    · next hsame => exact .inl ⟨hlt, hsame, rfl⟩
    · exact .inr rfl
  · exact .inr rfl

theorem sameFragment_trans {m m' : Buf} {le le' : Nat} (h : sameFragment m le dev de = true)
    (h' : sameFragment m' le' dev de = true) : sameFragment m le m' le' = true := by
  simp only [sameFragment, decide_eq_true_eq] at h h' ⊢
  obtain ⟨h0, h1, h2, h3⟩ := h
  obtain ⟨h0', h1', h2', h3'⟩ := h'
  exact ⟨h0.trans h0'.symm, h1.trans h1'.symm, h2.trans h2'.symm, h3.trans h3'.symm⟩

section Stored

variable (h : Stored lfn dev ins)
include h

/-- After `j` long entries of its own name the search has matched as many. -/
theorem visit_stored_long (hs : s.matchIndex = 0) (hj : j ≤ lfn.lfnEntryCount) :
    ∃ t, visit (searchCallback lfn dev) (slots ins j) s = (true, t) ∧ t.matchIndex = j ∧
      (j ≠ 0 → t.lastChecksum = lfnChecksum dev (ins + 32 * lfn.lfnEntryCount)) := by
  induction j with
  | zero => exact ⟨s, rfl, hs, absurd rfl⟩
  | succ j ih =>
    obtain ⟨t, hvisit, hidx, -⟩ := ih (le_of_succ_le hj)
    have hlt : j < lfn.lfnEntryCount := hj
    have hstep : searchCallback lfn dev t (ins + 32 * j) =
        (true, { t with lastChecksum := dev (ins + 32 * j + 13), matchIndex := t.matchIndex + 1 }) := by
      rw [searchCallback, h.attr j hj, if_neg (by decide), if_neg (fun h => h rfl), hidx, if_pos hlt,
        if_pos (h.same j hlt)]
    rw [slots_succ, visit_append_true hvisit, visit_cons_true hstep]
    exact ⟨_, rfl, congrArg (· + 1) hidx, fun _ => h.checksum j hj⟩

theorem visit_new (hne : lfn.lfnEntryCount ≠ 0) (hs : s.matchIndex = 0) :
    ∃ t, visit (searchCallback lfn dev) (slots ins (lfn.lfnEntryCount + 1)) s = (false, t) ∧
      t.result = some (ins + 32 * lfn.lfnEntryCount) := by
  obtain ⟨t, hvisit, hidx, hsum⟩ := visit_stored_long h hs le_rfl
  have hstep : searchCallback lfn dev t (ins + 32 * lfn.lfnEntryCount) =
      (false, { t with result := some (ins + 32 * lfn.lfnEntryCount) }) := by
    rw [searchCallback, if_neg h.short_attr.1, if_pos h.short_attr.2, if_neg (fun h => hne h.1),
      if_pos ⟨hne, hidx, hsum hne⟩]
  rw [slots_succ, visit_append_true hvisit, visit_cons_false hstep]
  exact ⟨_, rfl, rfl⟩

variable (hlfn' : lfn'.Spells units')
include hlfn hlfn'

/-- Fragments with the same ordinal: both are the first ones of names that have as many, or
neither is the first one. -/
theorem ordinal_of_same (hi : i < lfn'.lfnEntryCount) (hj : j < lfn.lfnEntryCount)
    (hsame : sameFragment lfn'.fragments (32 * i) dev (ins + 32 * j) = true) :
    (i = 0 ↔ j = 0) ∧ (j = 0 → lfn'.lfnEntryCount = lfn.lfnEntryCount) := by
  have hown := h.same j hj
  simp only [sameFragment, decide_eq_true_eq] at hsame hown
  have hord : ordinal lfn'.lfnEntryCount i = ordinal lfn.lfnEntryCount j := by
    rw [← hlfn'.ordinals i hi, ← hlfn.ordinals j hj, hsame.1, hown.1]
  have hle := lt_succ_of_le hlfn.count_le
  have hle' := lt_succ_of_le hlfn'.count_le
  have hzero : i = 0 ↔ j = 0 := by
    rw [← (ordinal_spec _ hle' i hi).2.2, ← (ordinal_spec _ hle j hj).2.2, hord]
  refine ⟨hzero, fun hj0 => ?_⟩
  rw [hzero.mpr hj0, hj0] at hord
  exact ordinal_zero_inj _ hle' _ hle hord

/-- After `j` long entries of the new name the search for another one has begun again, or it has
matched all of them. -/
theorem visit_stored_other (hs : s.matchIndex = 0) (hj : j ≤ lfn.lfnEntryCount) :
    ∃ t, visit (searchCallback lfn' dev) (slots ins j) s = (true, t) ∧ t.result = s.result ∧
      (t.matchIndex = 0 ∨ t.matchIndex = j ∧ lfn'.lfnEntryCount = lfn.lfnEntryCount ∧
        ∀ i < j, sameFragment lfn'.fragments (32 * i) dev (ins + 32 * i) = true) := by
  induction j with
  | zero => exact ⟨s, rfl, rfl, .inl hs⟩
  | succ j ih =>
    have hlt : j < lfn.lfnEntryCount := hj
    obtain ⟨t, hvisit, hres, hidx⟩ := ih (le_of_lt hlt)
    rw [slots_succ, visit_append_true hvisit]
    rcases searchCallback_long lfn' t (h.attr j hlt) with ⟨hi, hsame, hstep⟩ | hstep
    · rw [visit_cons_true hstep]
      refine ⟨_, rfl, hres, .inr ?_⟩
      obtain ⟨hzero, hcount⟩ := ordinal_of_same hlfn h hlfn' hi hlt hsame
      rcases hidx with h0 | ⟨hidx, hcount', hall⟩
      · obtain rfl := hzero.mp h0
        refine ⟨congrArg (· + 1) h0, hcount rfl, fun i hi' => ?_⟩
        obtain rfl : i = 0 := by omega
        rwa [h0] at hsame
      · refine ⟨congrArg (· + 1) hidx, hcount', fun i hi' => ?_⟩
        rcases Nat.lt_succ_iff_lt_or_eq.mp hi' with hlt' | rfl
        · exact hall i hlt'
        · rwa [hidx] at hsame
    · rw [visit_cons_true hstep]
      exact ⟨_, rfl, hres, .inl rfl⟩

theorem visit_other (hu : IsUnits units) (hu' : IsUnits units') (hne : units' ≠ units)
    (hshort : lfn'.lfnEntryCount = 0 →
      peek dev (ins + 32 * lfn.lfnEntryCount) 11 ≠ peek lfn'.fragments 0 11)
    (hs : s.matchIndex = 0) :
    ∃ t, visit (searchCallback lfn' dev) (slots ins (lfn.lfnEntryCount + 1)) s = (true, t) ∧
      t.result = s.result ∧ t.matchIndex = 0 := by
  obtain ⟨t, hvisit, hres, hidx⟩ := visit_stored_other hlfn h hlfn' hs le_rfl
  have hstep : searchCallback lfn' dev t (ins + 32 * lfn.lfnEntryCount) =
      (true, { t with matchIndex := 0 }) := by
    rw [searchCallback, if_neg h.short_attr.1, if_pos h.short_attr.2,
      if_neg (fun h => hshort h.1 h.2), if_neg]
    -- a complete match would mean that the names are the same
    intro hfound
    obtain ⟨hne0, hfull, -⟩ := hfound
    rcases hidx with h0 | ⟨-, hcount, hall⟩
    · exact hne0 (hfull.symm.trans h0)
    · apply hne
      rw [FullLfn.Spells, hcount] at hlfn'
      rw [hcount] at hne0
      exact entries_inj hlfn' hlfn hu' hu hne0 fun i hi =>
        sameFragment_trans (hall i hi) (h.same i hi)
  rw [slots_succ, visit_append_true hvisit, visit_cons_true hstep]
  exact ⟨_, rfl, hres, rfl⟩

end Stored

/-! ## Before and after -/

/-- What a search finds in a list of entries. -/
def found (lfn : FullLfn) (dev : Buf) (entries : List Nat) : Option Nat :=
  (visit (searchCallback lfn dev) entries ⟨0, 0, none⟩).2.result

theorem searchCallback_cases (lfn : FullLfn) (dev : Buf) (s : SearchSt) (de : Nat) :
    ((searchCallback lfn dev s de).1 = false ∧ (searchCallback lfn dev s de).2.result = some de) ∨
    ((searchCallback lfn dev s de).1 = true ∧
      (searchCallback lfn dev s de).2.result = s.result) := by
  rw [searchCallback]
  split
  · exact .inr ⟨rfl, rfl⟩
  split
  · split
    · exact .inl ⟨rfl, rfl⟩
    split
    · exact .inl ⟨rfl, rfl⟩
    · exact .inr ⟨rfl, rfl⟩
  split
  · split
    · exact .inr ⟨rfl, rfl⟩
    · exact .inr ⟨rfl, rfl⟩
  · exact .inr ⟨rfl, rfl⟩

/-- A search that stops has found one of the entries, one that does not stop has found none. -/
theorem visit_result (lfn : FullLfn) (dev : Buf) (entries : List Nat) (s : SearchSt) :
    (∃ t, visit (searchCallback lfn dev) entries s = (false, t) ∧
      ∃ de ∈ entries, t.result = some de) ∨
    (∃ t, visit (searchCallback lfn dev) entries s = (true, t) ∧ t.result = s.result) := by
  induction entries generalizing s with
  | nil => exact .inr ⟨s, rfl, rfl⟩
  | cons de entries ih =>
    rcases hstep : searchCallback lfn dev s de with ⟨go, t⟩
    have hcases := searchCallback_cases lfn dev s de
    rw [hstep] at hcases
    cases go with
    | false =>
      rw [visit_cons_false hstep]
      rcases hcases with ⟨-, hres⟩ | ⟨h, -⟩
      · exact .inl ⟨t, rfl, de, mem_cons_self, hres⟩
      · cases h
    | true =>
      rw [visit_cons_true hstep]
      rcases hcases with ⟨h, -⟩ | ⟨-, hres⟩
      · cases h
      rcases ih t with ⟨t', hvisit, de', hmem, hres'⟩ | ⟨t', hvisit, hres'⟩
      · exact .inl ⟨t', hvisit, de', mem_cons_of_mem de hmem, hres'⟩
      · exact .inr ⟨t', hvisit, hres'.trans hres⟩

/-- The last of the entries does not leave the search in the middle of a name. -/
def Settled (dev : Buf) (entries : List Nat) : Prop :=
  ∀ de, entries.getLast? = some de → ¬ LiveLong dev de

theorem found_congr (h : ∀ de ∈ pre, ∀ j < 32, dev (de + j) = dev' (de + j)) :
    found lfn dev pre = found lfn dev' pre := by
  rw [found, found, visit_congr fun de hde s => searchCallback_congr (h de hde) s]

theorem found_mem (h : found lfn dev pre = some de) : de ∈ pre := by
  rw [found] at h
  rcases visit_result lfn dev pre ⟨0, 0, none⟩ with ⟨t, ht, de', hmem, hres⟩ | ⟨t, ht, hres⟩
  · rw [ht] at h
    rwa [← Option.some.inj (hres.symm.trans h)]
  · rw [ht] at h
    cases hres.symm.trans h

/-- New entries were written over free ones. -/
structure Inserted (lfn : FullLfn) (dev dev' : Buf) (pre post : List Nat) (ins : Nat) : Prop where
  settled : Settled dev pre
  free : ∀ de ∈ slots ins (lfn.lfnEntryCount + 1), isDirentFree dev de = true
  stored : Stored lfn dev' ins
  pre_same : ∀ de ∈ pre, ∀ j < 32, dev (de + j) = dev' (de + j)
  post_same : ∀ de ∈ post, ∀ j < 32, dev (de + j) = dev' (de + j)

include hlfn

theorem visit_idle (hpre : Settled dev pre) (hs : s.matchIndex = 0)
    (hvisit : visit (searchCallback lfn dev) pre s = (true, t)) : t.matchIndex = 0 := by
  rcases eq_nil_or_concat pre with rfl | ⟨l, de, rfl⟩
  · cases hvisit
    exact hs
  rw [concat_eq_append] at hvisit
  rcases visit_result lfn dev l s with ⟨u, hl, -⟩ | ⟨u, hl, -⟩
  · rw [visit_append_false hl] at hvisit
    cases hvisit
  rw [visit_append_true hl] at hvisit
  have hidle := searchCallback_idle (s := u) hlfn (hpre de (by simp))
  rcases hstep : searchCallback lfn dev u de with ⟨go, u'⟩
  rw [hstep] at hidle
  cases go with
  | false =>
    rw [visit_cons_false hstep] at hvisit
    cases hvisit
  | true =>
    rw [visit_cons_true hstep] at hvisit
    cases hvisit
    exact hidle rfl

/-- Free entries behind the others do not matter. -/
theorem found_append_free (hpre : Settled dev pre) (hfree : ∀ de ∈ post, isDirentFree dev de = true) :
    found lfn dev (pre ++ post) = found lfn dev pre := by
  rw [found, found]
  rcases visit_result lfn dev pre ⟨0, 0, none⟩ with ⟨t, ht, -⟩ | ⟨t, ht, -⟩
  · rw [visit_append_false ht, ht]
  · have hidle := visit_idle hlfn hpre rfl ht
    rw [visit_append_true ht, ht, visit_skip fun de hde => searchCallback_free hlfn (hfree de hde)
      hidle]

variable (h : Inserted lfn dev dev' pre post ins)
include h

theorem Inserted.found_new (hne : lfn.lfnEntryCount ≠ 0)
    (hmissing : found lfn dev (pre ++ (slots ins (lfn.lfnEntryCount + 1) ++ post)) = none) :
    found lfn dev' (pre ++ (slots ins (lfn.lfnEntryCount + 1) ++ post)) =
      some (ins + 32 * lfn.lfnEntryCount) := by
  rw [found] at hmissing ⊢
  have hpre := visit_congr (fun de hde s => searchCallback_congr (h.pre_same de hde) s)
    (⟨0, 0, none⟩ : SearchSt) (g := searchCallback lfn dev')
  rcases visit_result lfn dev pre ⟨0, 0, none⟩ with ⟨t, ht, de, -, hres⟩ | ⟨t, ht, -⟩
  · rw [visit_append_false ht, hres] at hmissing
    cases hmissing
  · have hidle := visit_idle hlfn h.settled rfl ht
    rw [ht] at hpre
    obtain ⟨t', ht', hres⟩ := visit_new h.stored hne hidle
    rw [visit_append_true hpre.symm, visit_append_false ht', hres]

theorem Inserted.found_other (hlfn' : lfn'.Spells units') (hu : IsUnits units)
    (hu' : IsUnits units') (hne : units' ≠ units)
    (hshort : lfn'.lfnEntryCount = 0 →
      peek dev' (ins + 32 * lfn.lfnEntryCount) 11 ≠ peek lfn'.fragments 0 11) :
    found lfn' dev' (pre ++ (slots ins (lfn.lfnEntryCount + 1) ++ post)) =
        found lfn' dev (pre ++ (slots ins (lfn.lfnEntryCount + 1) ++ post)) ∧
      ∀ de, found lfn' dev (pre ++ (slots ins (lfn.lfnEntryCount + 1) ++ post)) = some de →
        de ∈ pre ++ post := by
  rw [found, found]
  have hpre := visit_congr (fun de hde s => searchCallback_congr (h.pre_same de hde) s)
    (⟨0, 0, none⟩ : SearchSt) (g := searchCallback lfn' dev')
  rcases visit_result lfn' dev pre ⟨0, 0, none⟩ with
    ⟨t, ht, de, hmem, hres⟩ | ⟨t, ht, hres⟩
  · rw [visit_append_false ht, visit_append_false (hpre.symm.trans ht)]
    refine ⟨rfl, fun de' hde' => ?_⟩
    cases hres.symm.trans hde'
    exact mem_append_left post hmem
  · have hidle := visit_idle hlfn' h.settled rfl ht
    rw [ht] at hpre
    obtain ⟨t', ht', hres', hidle'⟩ := visit_other hlfn h.stored hlfn' hu hu' hne hshort hidle
    have hskip := visit_skip fun de hde => searchCallback_free hlfn' (h.free de hde) hidle
    rw [visit_append_true ht, visit_append_true hpre.symm, visit_append_true hskip,
      visit_append_true ht']
    have hstep : InStep t' t := ⟨hidle'.trans hidle.symm, hres', absurd hidle'⟩
    have hrel : (visit (searchCallback lfn' dev) post t').1 =
        (visit (searchCallback lfn' dev) post t).1 ∧
          InStep (visit (searchCallback lfn' dev) post t').2
            (visit (searchCallback lfn' dev) post t).2 :=
      visit_rel (fun _ _ _ _ hss => searchCallback_inStep hss) hstep
    have hpost := visit_congr (fun de hde s => searchCallback_congr (h.post_same de hde) s) t'
      (g := searchCallback lfn' dev')
    rw [← hpost, hrel.2.result]
    refine ⟨rfl, fun de hde => ?_⟩
    rcases visit_result lfn' dev post t with ⟨u, hu, de', hmem, hres''⟩ | ⟨u, hu, hres''⟩
    · rw [hu] at hde
      cases hres''.symm.trans hde
      exact mem_append_right pre hmem
    · rw [hu] at hde
      rw [hres'', hres] at hde
      cases hde

end Dgos.L3.Fat32
