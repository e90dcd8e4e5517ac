import Dgos.L3Files.Iso9660Walk

/-!
# Which paths iso9660 resolves

`Right v path`: on the volume `v`, `lookup_dirent` returns for the path the record that the path
names, and nothing if it names none, whatever lies in memory behind the path.

Results:
* `lookup_right_iff`: for which volumes and paths that is so (`JolietServed`, `IsoServed`).
* `missing_component_found`: a path on a Joliet volume whose second component does not exist,
  and which resolves.

On a Joliet volume a path with a missing component is looked up in the last directory that was
found, and a path to a directory may be followed into the memory behind it. On a volume with
ISO 9660 names the comparator tells blanks from other components and nothing else, and for the
root's entry in the path table it reads outside of the table.
-/
namespace Dgos.L3.Iso9660

open L1.BinarySearch L1.Utf8 List Option Prod Nat Except Fs

namespace Volume

variable (v : Volume)

/-- The record that a path names. -/
def expected (path : Path) : Option Nat :=
  (v.walk v.root path.dirs).bind fun d => v.entry d path.name

/-- The lookup returns, and returns what the path names. -/
def Right (path : Path) : Prop :=
  ∀ s : CString, s.Holds path → ∃ n, ∀ fuel ≥ n, v.lookupDirent fuel s = .ok (v.expected path)

/-! ## In terms of the table walk -/

variable {v} {path : Path} {junk : List UInt8} {n : Nat}

theorem right_iff_root (hdirs : ¬ 1 < dirsLen path.dirs) :
    v.Right path ↔ v.scan v.root path.name = .ok (v.expected path) := by
  have hrec : ∀ fuel s, v.pathRec fuel s (dirsLen path.dirs - 1) = .ok (some 0) := fun fuel s =>
    if_neg (by omega)
  have hlt : ∀ i, some 0 = some i → i < v.ptPtrs.length := fun i hi =>
    some.inj hi ▸ v.length_pos
  have hanswer : v.answer path.name (some 0) = v.scan v.root path.name := dif_pos v.length_pos
  constructor
  · intro h
    obtain ⟨n, hn⟩ := h _ (path.string_holds [] 1)
    rw [← hanswer, ← lookupDirent_eq (path.string_holds [] 1) (hrec n _) hlt]
    exact hn n (le_refl n)
  · intro h s hs
    refine ⟨0, fun fuel _ => ?_⟩
    rw [lookupDirent_eq hs (hrec fuel s) hlt, hanswer, h]

/-- There is no separator in the last component and behind it. -/
theorem ne_sep (path : Path) (hjunk : ∀ b ∈ junk, b ≠ 0x2F) :
    ∀ b ∈ path.name ++ 0 :: junk, b ≠ 0x2F :=
  forall_mem_append.2 ⟨fun b hb => (path.pieces path.name mem_cons_self b hb).2,
    forall_mem_cons.2 ⟨by decide, hjunk⟩⟩

theorem memchr_string_nil (path : Path) (n : Nat) :
    memchr (path.string [] 1).mem (dirsLen path.dirs) 0x2F n = none := by
  refine memchr_eq_none fun i _ => ?_
  rw [path.string_mem]
  by_cases hi : i < (path.name ++ [0]).length
  · rw [getD_eq_getElem _ _ hi]
    exact ne_sep path (by simp) _ (getElem_mem hi)
  · rw [getD_eq_default _ _ (Nat.le_of_not_lt hi)]
    decide

/-- The component that is read from a memory with a separator behind the path. -/
theorem textAt_string_sep (path : Path) (junk tail : List UInt8) (fill : UInt8) :
    (path.string (junk ++ 0x2F :: tail) fill).mem
        (dirsLen path.dirs + (path.name ++ 0 :: junk).length) = 0x2F ∧
      TextAt (path.string (junk ++ 0x2F :: tail) fill).mem (dirsLen path.dirs)
        (path.name ++ 0 :: junk) := by
  have hmem : ∀ i, (path.string (junk ++ 0x2F :: tail) fill).mem (dirsLen path.dirs + i) =
      ([] ++ ((path.name ++ 0 :: junk) ++ 0x2F :: tail)).getD (0 + i) fill := fun i => by
    rw [path.string_mem, nil_append, zero_add, append_assoc, cons_append]
  have hsep := (hmem _).trans (getD_behind [] _ (0x2F :: tail) 0 fill)
  exact ⟨hsep, fun i hi => (hmem i).trans (getD_inside hi fill), .inl hsep⟩

theorem memchr_string_sep (path : Path) (hjunk : ∀ b ∈ junk, b ≠ 0x2F)
    (tail : List UInt8) (fill : UInt8) (hlt : (path.name ++ 0 :: junk).length < n) :
    memchr (path.string (junk ++ 0x2F :: tail) fill).mem (dirsLen path.dirs) 0x2F n =
      some (path.name ++ 0 :: junk).length := by
  obtain ⟨hsep, htext⟩ := textAt_string_sep path junk tail fill
  refine memchr_eq_some hlt hsep fun i hi => ?_
  rw [htext.bytes i hi, getD_eq_getElem _ _ hi]
  exact ne_sep path hjunk _ (getElem_mem hi)

theorem none_lt : ∀ i, (none : Option Nat) = some i → i < v.ptPtrs.length := nofun

/-- The memory behind the path never gives another directory. -/
def EndsThere (v : Volume) (path : Path) : Prop :=
  ∀ last junk next, v.tableWalk none path.dirs = .ok (last, true) →
    v.search (number last) (path.name ++ 0 :: junk) ≠ .ok (some next)

theorem right_iff_walk (hdirs : 1 < dirsLen path.dirs) (hover : v.EndsThere path) :
    v.Right path ↔ ∃ last all, v.tableWalk none path.dirs = .ok (last, all) ∧
      (all = true → v.Clear path last) ∧ v.answer path.name last = .ok (v.expected path) := by
  constructor
  · intro h
    cases hwalk : v.tableWalk none path.dirs with
    | error e =>
      obtain ⟨n, hn⟩ := h _ (path.string_holds [] 1)
      have hfuel := hn (n + path.dirs.length) (le_add_right _ _)
      rw [lookupDirent_error (path.string_holds [] 1)
        (by rw [pathRec_eq (path.string_holds [] 1) hdirs, hwalk]; rfl)] at hfuel
      cases hfuel
    | ok r =>
      obtain ⟨last, all⟩ := r
      have hlt := tableWalk_lt none_lt hwalk
      refine ⟨last, all, rfl, fun hall junk hjunk hlen => ?_, ?_⟩
      · -- the memory with `junk` and a separator behind the path
        subst hall
        have hlen' : (path.name ++ 0 :: junk).length < path.len := by
          rw [length_append, length_cons]
          omega
        have hs := path.string_holds (junk ++ [0x2F]) 1
        obtain ⟨n, hn⟩ := h _ hs
        have hfuel := hn (n + 1 + path.dirs.length) (by omega)
        have hrec : v.pathRec (n + 1 + path.dirs.length) (path.string (junk ++ [0x2F]) 1)
            (dirsLen path.dirs - 1) = _ :=
          (pathRec_eq hs hdirs (n + 1)).trans (ok_bind hwalk _)
        rw [lookupPathLoop, memchr_string_sep path hjunk [] 1 hlen'] at hrec
        simp only at hrec
        rw [searchTable_text (textAt_string_sep path junk [] 1).2] at hrec
        cases hsearch : v.search (number last) (path.name ++ 0 :: junk) with
        | error e =>
          rw [hsearch] at hrec
          rw [lookupDirent_error hs hrec] at hfuel
          cases hfuel
        | ok next =>
          cases next with
          | none => rfl
          | some next => exact absurd hsearch (hover last junk next hwalk)
      · have hs := path.string_holds [] 1
        obtain ⟨n, hn⟩ := h _ hs
        have hfuel := hn (n + 1 + path.dirs.length) (by omega)
        rw [lookupDirent_eq hs ?_ hlt] at hfuel
        · exact hfuel
        · rw [pathRec_eq hs hdirs, ok_bind hwalk]
          cases all with
          | false => rfl
          | true =>
            rw [if_pos rfl, lookupPathLoop, memchr_string_nil]
  · intro h s hs
    obtain ⟨last, all, hwalk, hclear, hanswer⟩ := h
    refine ⟨1 + path.dirs.length, fun fuel hfuel => ?_⟩
    obtain ⟨k, rfl⟩ : ∃ k, fuel = k + 1 + path.dirs.length := ⟨fuel - 1 - path.dirs.length, by omega⟩
    rw [← hanswer]
    apply lookupDirent_eq hs _ (tableWalk_lt none_lt hwalk)
    rw [pathRec_eq hs hdirs, ok_bind hwalk]
    cases all with
    | false => rfl
    | true => exact lookupPathLoop_clear hs.name (hclear rfl)

/-! ## Records -/

variable {name piece : List UInt8} {dirs : List (List UInt8)} {d c e : v.Dir} {last : Option Nat}

theorem entry_mem {x : Nat} (h : v.entry d name = some x) :
    ∃ o, .record o ∈ (v.dir d).stops ∧ x = v.base d + o := by
  obtain ⟨o, hfind, rfl⟩ := map_eq_some_iff.mp h
  exact ⟨o, mem_records.mp (mem_of_find?_eq_some hfind), rfl⟩

theorem dir_unique {o o' : Nat} (ho : o < (v.dir d).len) (ho' : o' < (v.dir e).len)
    (h : v.base d + o = v.base e + o') : d = e := by
  by_contra hne
  have := v.apart d e hne
  rw [base, base] at h
  omega

theorem expected_ne_padding {o : Nat} (ho : .padding o ∈ (v.dir d).stops) :
    v.expected path ≠ some (v.base d + o) := by
  intro h
  obtain ⟨e, -, hentry⟩ := bind_eq_some_iff.mp h
  obtain ⟨o', hrec, hsum⟩ := entry_mem hentry
  obtain rfl : d = e := dir_unique ((inOrder (v.dir d).layout).le _ ho).2
    ((inOrder (v.dir e).layout).le _ hrec).2 hsum
  obtain rfl : o = o' := add_left_cancel hsum
  exact padding_not_record (v.dir d).layout ho hrec

theorem scan_expected_iff : v.scan d path.name = .ok (v.expected path) ↔
      v.Quiet d path.name ∧ v.found d path.name = v.expected path :=
  scan_ok_iff fun _ => expected_ne_padding

/-! ## ISO 9660 names -/

/-- A component that begins, blanks aside, with a character above the blank: it comes before every
identifier of a directory. -/
def Text (piece : List UInt8) : Prop :=
  ∃ c < 0, nameCompareAscii (fun _ => 0) 0 (text piece) 0 piece.length = .ok c

/-- Where a lookup with ISO 9660 names is right. The comparator finds the record of the
directory itself for a blank name, and otherwise nothing. With a directory part, the search for a
first component that is a text gets to the identifier of the root and fails. Behind any other one
the searches of the path table must not get to an identifier with less than 8 bytes, and the
directory they end in (which is not the one the path names, unless by chance) must not give a wrong
answer. -/
def IsoServed (v : Volume) (path : Path) : Prop :=
  if 1 < dirsLen path.dirs then (∀ piece ∈ path.dirs.head?, ¬ Text piece) ∧
    ∃ last all, v.tableWalk none path.dirs = .ok (last, all) ∧
      (all = true → v.Clear path last) ∧ (last = none → v.expected path = none) ∧
      ∀ d : v.Dir, last = some d.val → v.Quiet d path.name ∧
        v.expected path = if Blank path.name then some (v.base d) else none
  else v.Quiet v.root path.name ∧
    v.expected path = if Blank path.name then some (v.base v.root) else none

theorem number_lt (h : ∀ i, last = some i → i < v.ptPtrs.length) : number last < 2 ^ 32 := by
  cases last with
  | none => decide
  | some i =>
    have := h i rfl
    have := v.count_lt
    rw [number]
    omega

/-- The identifier of a directory is compared as if it were empty. -/
theorem lookupPathCmp_iso (hj : v.joliet = false) {i : Nat} {m : Buf} {key : PathKey} {c : Int}
    (hlt : i < v.ptPtrs.length) (h : v.lookupPathCmp (v.pt i) m key = .ok c) :
    (v.pt i).parentDn ≠ key.parent ∧ diff32 key.parent (v.pt i).parentDn = c ∨
      i ≠ 0 ∧ nameCompareAscii (fun _ => 0) 0 m key.name key.len = .ok c := by
  rw [lookupPathCmp, if_neg (Bool.eq_false_iff.1 hj), lookupPathCmpAscii] at h
  split at h
  · next hpar => exact .inl ⟨hpar, ok.inj h⟩
  · split at h
    · cases h
    · next hlen =>
      have h0 : i ≠ 0 := by
        rintro rfl
        rw [(pt_root v).2.1] at hlen
        exact hlen (by decide)
      have hid := v.rec_ids _ (pt_mem_tail hlt h0)
      rw [if_neg (Bool.eq_false_iff.1 hj)] at hid
      rw [nameCompareAscii_dir fun i hi => hid i (by omega)] at h
      exact .inr ⟨h0, h⟩

theorem tableWalk_text (hj : v.joliet = false) (hp : piece ∈ dirs.head?) (ht : Text piece)
    {r : Option Nat × Bool} (h : v.tableWalk none dirs = .ok r) : False := by
  obtain ⟨rest, rfl⟩ := head?_eq_some_iff.1 hp
  obtain ⟨c, hneg, hc⟩ := ht
  obtain ⟨found, h, -⟩ := bind_eq_ok h
  obtain ⟨r, h, -⟩ := bind_eq_ok h
  obtain ⟨x, h, -⟩ := bind_eq_ok h
  refine searchLoop_left true (fun c h0 => ?_) (fun i hi c' hcmp => ?_) v.length_pos le_rfl le_rfl
    (-1) x h
  · rcases lookupPathCmp_iso hj v.length_pos h0 with ⟨hpar, -⟩ | ⟨h0, -⟩
    · exact hpar (pt_root v).1
    · exact h0 rfl
  · rcases lookupPathCmp_iso hj hi hcmp with ⟨hpar, rfl⟩ | ⟨-, hcmp⟩
    · have h0 : 0 < i := Nat.pos_of_ne_zero fun h => hpar (h ▸ (pt_root v).1)
      have := (v.parent_le i h0 hi).1
      have := parent_lt hi
      have : (v.pt i).parentDn ≠ 1 := hpar
      show diff32 1 _ < 0
      rw [diff32_of_lt (by decide) (by omega)]
      omega
    · exact ok.inj (hc.symm.trans hcmp) ▸ hneg

example : Text [0x41] := ⟨-33, by decide, by decide⟩

/-- No directory's identifier compares equal to a component with a terminator in it. -/
theorem search_nul_iso (hj : v.joliet = false) {parent : Nat} (hparent : parent < 2 ^ 32)
    (name junk : List UInt8) (next : Nat) :
    v.search parent (name ++ 0 :: junk) ≠ .ok (some next) := by
  intro h
  obtain ⟨r, hr, h⟩ := bind_eq_ok h
  split at h
  · cases h
  · next hneg =>
    obtain ⟨hlt, hcmp⟩ := binarySearch_found hr (Int.not_lt.mp hneg)
    rcases lookupPathCmp_iso hj hlt hcmp with ⟨hpar, h0⟩ | ⟨-, hcmp⟩
    · have := parent_lt hlt
      exact hpar ((diff32_eq_zero_iff hparent (by omega)).mp h0).symm
    · refine nameCompareAscii_nul (z := name.length) ?_ (zero_le _) ?_ hcmp
      · rw [text, getD_append_right _ _ _ _ le_rfl, Nat.sub_self]
        rfl
      · show name.length < 0 + (name ++ 0 :: junk).length
        rw [length_append, length_cons]
        omega

theorem answer_expected_iff (hlt : ∀ i, last = some i → i < v.ptPtrs.length) :
    v.answer path.name last = .ok (v.expected path) ↔ (last = none → v.expected path = none) ∧
      ∀ d : v.Dir, last = some d.val → v.Quiet d path.name ∧ v.found d path.name = v.expected path := by
  cases last with
  | none =>
    constructor
    · intro h
      exact ⟨fun _ => (ok.inj h).symm, fun _ hd => by cases hd⟩
    · intro h
      rw [h.1 rfl]
      rfl
  | some i =>
    have hi := hlt i rfl
    rw [answer, dif_pos hi, scan_expected_iff]
    constructor
    · intro h
      refine ⟨(by cases ·), fun d hd => ?_⟩
      obtain rfl : (⟨i, hi⟩ : v.Dir) = d := Fin.ext (some.inj hd)
      exact h
    · intro h
      exact h.2 ⟨i, hi⟩ rfl

theorem right_iff_iso (hj : v.joliet = false) : v.Right path ↔ v.IsoServed path := by
  rw [IsoServed]
  by_cases hdirs : 1 < dirsLen path.dirs
  · rw [if_pos hdirs, right_iff_walk hdirs fun last junk next hwalk =>
      search_nul_iso hj (number_lt (tableWalk_lt none_lt hwalk)) _ _ _, and_iff_right_of_imp
      fun ⟨_, _, hwalk, _⟩ piece hp ht => tableWalk_text hj hp ht hwalk]
    refine exists_congr fun last => exists_congr fun all => and_congr_right fun hwalk => ?_
    rw [answer_expected_iff (tableWalk_lt none_lt hwalk)]
    simp [found_iso hj, eq_comm]
  · rw [if_neg hdirs, right_iff_root hdirs, scan_expected_iff, found_iso hj, eq_comm]

/-! ## Joliet names -/

/-- The last directory on the way that exists. -/
def reached (v : Volume) (d : v.Dir) : List (List UInt8) → v.Dir
  | [] => d
  | piece :: rest =>
    match v.child d piece with
    | none => d
    | some c => reached v c rest

/-- Where the search of the path table ends; nowhere if the first component is missing. -/
def stopDir (v : Volume) : List (List UInt8) → Option v.Dir
  | [] => none
  | piece :: rest => (v.child v.root piece).map fun c => v.reached c rest

/-- Where a lookup with Joliet names is right. All components in front of the last one exist:
the padding of the directory is not taken for the name, and the name is no directory (which
would be followed into the memory behind the path). One is missing: there is nothing with the
name in the directory in front of it. -/
def JolietServed (v : Volume) (path : Path) : Prop :=
  match v.walk v.root path.dirs with
  | some d => v.Quiet d path.name ∧ (1 < dirsLen path.dirs → v.child d path.name = none)
  | none => ∀ d, v.stopDir path.dirs = some d → v.Quiet d path.name ∧ v.entry d path.name = none

theorem dirs_ne_nil (hdirs : 1 < dirsLen dirs) : dirs ≠ [] := by
  rintro rfl
  exact absurd hdirs (by decide)

theorem reached_of_walk (h : v.walk d dirs = some e) : v.reached d dirs = e := by
  induction dirs generalizing d with
  | nil => exact some.inj h
  | cons piece rest ih =>
    obtain ⟨c, hc, h⟩ := bind_eq_some_iff.mp h
    rw [reached, hc]
    exact ih h

theorem stopDir_of_walk (hdirs : dirs ≠ [])
    (h : v.walk v.root dirs = some e) : v.stopDir dirs = some e := by
  cases dirs with
  | nil => exact absurd rfl hdirs
  | cons piece rest =>
    obtain ⟨c, hc, h⟩ := bind_eq_some_iff.mp h
    rw [stopDir, hc, map_some, reached_of_walk h]

theorem child_spec (h : v.child d piece = some c) :
    (v.pt c).parentDn = d + 1 ∧ names v.joliet ((v.pt c).chars v.joliet) piece := by
  have := find?_some h
  rwa [decide_eq_true_eq] at this

theorem child_ne_none (hpar : (v.pt c).parentDn = d + 1)
    (hname : names v.joliet ((v.pt c).chars v.joliet) piece) : v.child d piece ≠ none := by
  intro h
  exact find?_eq_none.mp h c (mem_finRange c) (decide_eq_true ⟨hpar, hname⟩)

/-- A directory of the path table has a record in its parent. -/
theorem entry_of_child
    (h : v.child d name = some c) (hpos : 0 < c.val) : ∃ x, v.entry d name = some x := by
  obtain ⟨hpar, hname⟩ := child_spec h
  obtain ⟨ofs, hrec, hchars⟩ := v.listed c d hpos hpar
  cases hentry : v.entry d name with
  | some x => exact ⟨x, rfl⟩
  | none =>
    have hno := find?_eq_none.mp (map_eq_none_iff.mp hentry) ofs (mem_records.mpr hrec)
    refine absurd (decide_eq_true ?_) hno
    rw [recordChars]
    exact hchars ▸ hname

theorem answer_dir (d : v.Dir) (name : List UInt8) : v.answer name (some d.val) = v.scan d name :=
  dif_pos d.isLt

theorem expected_of_walk (h : v.walk v.root path.dirs = some d) :
    v.expected path = v.entry d path.name := by
  rw [expected, h]
  rfl

section Joliet

variable (hj : v.joliet = true)
include hj

theorem tableWalk_joliet (d : v.Dir) (dirs : List (List UInt8)) :
    v.tableWalk (some d) dirs = .ok (some (v.reached d dirs).val, (v.walk d dirs).isSome) := by
  induction dirs generalizing d with
  | nil => rfl
  | cons piece rest ih =>
    rw [tableWalk, number, ok_bind (search_joliet hj d piece), reached, walk]
    cases v.child d piece with
    | none => rfl
    | some c => exact ih c

theorem tableWalk_none_joliet (hdirs : dirs ≠ []) : v.tableWalk none dirs =
      .ok ((v.stopDir dirs).map Fin.val, (v.walk v.root dirs).isSome) := by
  cases dirs with
  | nil => exact absurd rfl hdirs
  | cons piece rest =>
    have hsearch : v.search (number none) piece = .ok ((v.child v.root piece).map Fin.val) :=
      search_joliet hj v.root piece
    rw [tableWalk, ok_bind hsearch, stopDir, walk]
    cases v.child v.root piece with
    | none => rfl
    | some c => exact tableWalk_joliet hj c rest

theorem child_append_zero (d : v.Dir) (name : List UInt8) :
    v.child d (name ++ [0]) = v.child d name := by
  obtain ⟨ks, hks, hnil⟩ := pieceChars_append_nul name []
  rw [hnil rfl] at hks
  have hnames : ∀ chars, names v.joliet chars (name ++ [0]) ↔ names v.joliet chars name := by
    intro chars
    rw [names, names, if_pos hj, if_pos hj, hks, trimZeros_append_zero]
  refine find?_congr fun i _ => ?_
  rw [decide_eq_decide, hnames]

/-- A directory found behind the path has the path's last component as its name. -/
theorem child_of_junk (h : v.child d (name ++ 0 :: junk) = some c) : v.child d name ≠ none := by
  obtain ⟨hpar, hname⟩ := child_spec h
  obtain ⟨ks, hks, -⟩ := pieceChars_append_nul name junk
  refine child_ne_none hpar ?_
  rw [names, if_pos hj, hks] at hname
  rw [names, if_pos hj]
  exact trimZeros_of_append (rec_words hj c.isLt) hname

theorem chars_root : (v.pt v.root).chars v.joliet = [] := by
  rw [PtRec.chars, idChars, if_pos hj, root, (pt_root v).2.1]
  rfl

/-- The empty component in front of a leading separator is the root. -/
theorem child_root_nil : v.child v.root [] = some v.root := by
  have hname : names v.joliet ((v.pt v.root).chars v.joliet) [] := by
    rw [names, if_pos hj, chars_root hj]
    rfl
  cases hchild : v.child v.root [] with
  | none => exact absurd hchild (child_ne_none (pt_root v).1 hname)
  | some c =>
    obtain ⟨hpar, hc⟩ := child_spec hchild
    rw [names, if_pos hj] at hc
    have hnil : (v.pt c).chars v.joliet = [] := map_eq_nil_iff.mp hc.symm
    by_contra hne
    have hpos : 0 < c.val := Nat.pos_of_ne_zero fun h0 => hne (congrArg some (Fin.ext h0))
    rcases less_of_lt hpos c.isLt with hlt | ⟨-, hlt⟩
    · rw [(pt_root v).1, hpar] at hlt
      exact lt_irrefl _ hlt
    · rw [hnil] at hlt
      exact not_lt_nil _ hlt

theorem lookupPathLoop_slashes {m : Buf} {p : Nat} (hn : 0 < n)
    (hm : ∀ i, p ≤ i → m i = 0x2F) (fuel : Nat) :
    v.lookupPathLoop m n fuel (some v.root) (number (some v.root)) p = .error .hang := by
  induction fuel generalizing p with
  | zero => rfl
  | succ fuel ih =>
    have hmemchr : memchr m p 0x2F n = some ([] : List UInt8).length :=
      memchr_eq_some hn (hm _ (le_add_right _ _)) nofun
    have htext : TextAt m p [] :=
      ⟨nofun, .inl (hm _ (le_add_right _ _))⟩
    rw [lookupPathLoop, hmemchr]
    simp only
    rw [searchTable_text htext, number, ok_bind (search_joliet hj v.root []), child_root_nil hj]
    exact ih fun i hi => hm i (by omega)

/-- The memory behind a path to a directory can send the search into that directory. -/
theorem pathRec_behind (hdirs : 1 < dirsLen path.dirs)
    (hwalk : v.tableWalk none path.dirs = .ok (some d.val, true))
    (hc : v.child d path.name = some c) (fill : UInt8) (fuel : Nat) :
    v.pathRec (fuel + 1 + path.dirs.length) (path.string [0x2F] fill) (dirsLen path.dirs - 1) =
      v.lookupPathLoop (path.string [0x2F] fill).mem path.len fuel (some c) (number (some c))
        (path.len + 1 + 1) := by
  have hlen : (path.name ++ [0]).length < path.len := by
    rw [length_append, length_singleton, Path.len]
    omega
  have hmemchr : memchr (path.string [0x2F] fill).mem (dirsLen path.dirs) 0x2F path.len = _ :=
    memchr_string_sep path (forall_mem_nil _) [] fill hlen
  have htext : TextAt (path.string [0x2F] fill).mem (dirsLen path.dirs) (path.name ++ [0]) :=
    (textAt_string_sep path [] [] fill).2
  rw [pathRec_eq (path.string_holds [0x2F] fill) hdirs, ok_bind hwalk, if_pos rfl,
    lookupPathLoop, hmemchr]
  simp only
  rw [searchTable_text htext, number, ok_bind (search_joliet hj d (path.name ++ [0])),
    child_append_zero hj, hc]
  simp [Path.len, number, add_assoc]

theorem not_right_of_child (hdirs : 1 < dirsLen path.dirs)
    (hwalk : v.walk v.root path.dirs = some d) (hc : v.child d path.name = some c) :
    ¬ v.Right path := by
  intro h
  have hne := dirs_ne_nil hdirs
  have htable : v.tableWalk none path.dirs = .ok (some d.val, true) := by
    rw [tableWalk_none_joliet hj hne, stopDir_of_walk hne hwalk, hwalk]
    rfl
  by_cases hcd : c = d
  · -- the root, which is its own parent: the search can go on for ever
    subst hcd
    have hroot : c = v.root := by
      by_contra h0
      have hpos : 0 < c.val := Nat.pos_of_ne_zero fun h => h0 (Fin.ext h)
      have hle := (v.parent_le c hpos c.isLt).2
      rw [(child_spec hc).1] at hle
      omega
    subst hroot
    obtain ⟨n, hn⟩ := h _ (path.string_holds [0x2F] 0x2F)
    have hfuel := hn (n + 1 + path.dirs.length) (by omega)
    have hrec := pathRec_behind hj hdirs htable hc 0x2F n
    rw [lookupPathLoop_slashes hj (by rw [Path.len]; omega)] at hrec
    · rw [lookupDirent_error (path.string_holds [0x2F] 0x2F) hrec] at hfuel
      cases hfuel
    · intro i hi
      obtain ⟨j, rfl⟩ : ∃ j, i = path.len + 1 + (j + 1) := ⟨i - path.len - 2, by omega⟩
      rw [path.string_behind]
      rfl
  · -- another directory: the record is searched for in there
    have hpos : 0 < c.val := by
      refine Nat.pos_of_ne_zero fun h0 => hcd (Fin.ext ?_)
      have hpar := (child_spec hc).1
      rw [h0, (pt_root v).1] at hpar
      omega
    obtain ⟨x, hx⟩ := entry_of_child hc hpos
    obtain ⟨n, hn⟩ := h _ (path.string_holds [0x2F] 1)
    have hfuel := hn (n + 1 + 1 + path.dirs.length) (by omega)
    have hrec := pathRec_behind hj hdirs htable hc 1 (n + 1)
    rw [lookupPathLoop, memchr_eq_none] at hrec
    · rw [lookupDirent_eq (path.string_holds [0x2F] 1) hrec
        (fun i hi => some.inj hi ▸ c.isLt), answer_dir, expected_of_walk hwalk, hx] at hfuel
      have hscan := scan_mem hfuel
      obtain ⟨o, ho, rfl⟩ := entry_mem hx
      have hlt : o < (v.dir d).len := ((inOrder (v.dir d).layout).le _ ho).2
      exact hcd (dir_unique (o := v.base d + o - v.base c) (by omega) hlt (by omega))
    · intro i _
      rw [show path.len + 1 + 1 + i = path.len + 1 + (i + 1) by omega, path.string_behind]
      exact show (1 : UInt8) ≠ 0x2F by decide

/-- The directory part of a path that is looked up in the root without a search. -/
theorem walk_root_joliet (hdirs : ¬ 1 < dirsLen dirs) : v.walk v.root dirs = some v.root := by
  cases dirs with
  | nil => rfl
  | cons d dirs =>
    rw [dirsLen_cons] at hdirs
    obtain rfl : d = [] := eq_nil_of_length_eq_zero (by omega)
    cases dirs with
    | nil =>
      rw [walk, child_root_nil hj]
      rfl
    | cons d dirs =>
      rw [dirsLen_cons] at hdirs
      omega

theorem right_iff_found (hdirs : 1 < dirsLen path.dirs) (hwalk : v.walk v.root path.dirs = some d)
    (htable : v.tableWalk none path.dirs = .ok (some d.val, true))
    (hchild : v.child d path.name = none) : v.Right path ↔ v.Quiet d path.name := by
  have hnone : ∀ junk, v.search (d + 1) (path.name ++ 0 :: junk) = .ok none := by
    intro junk
    rw [search_joliet hj]
    cases h : v.child d (path.name ++ 0 :: junk) with
    | none => rfl
    | some c => exact absurd hchild (child_of_junk hj h)
  have hover : v.EndsThere path := by
    intro last junk next hlast
    obtain rfl : some d.val = last := congrArg fst (ok.inj (htable.symm.trans hlast))
    rw [number, hnone]
    nofun
  rw [right_iff_walk hdirs hover, ← scan_iff, found_joliet hj, ← expected_of_walk hwalk]
  constructor
  · intro h
    obtain ⟨last, all, hlast, -, hanswer⟩ := h
    obtain rfl : some d.val = last := congrArg fst (ok.inj (htable.symm.trans hlast))
    rwa [answer_dir] at hanswer
  · intro h
    exact ⟨some d.val, true, htable, fun _ junk _ _ => hnone junk, (answer_dir d _).trans h⟩

theorem right_iff_missing (hdirs : 1 < dirsLen path.dirs) (hwalk : v.walk v.root path.dirs = none)
    (htable : v.tableWalk none path.dirs = .ok ((v.stopDir path.dirs).map Fin.val, false)) :
    v.Right path ↔ ∀ d, v.stopDir path.dirs = some d →
      v.Quiet d path.name ∧ v.entry d path.name = none := by
  have hexpected : v.expected path = none := by
    rw [expected, hwalk]
    rfl
  have hover : v.EndsThere path := by
    intro last junk next hlast
    exact nomatch congrArg snd (ok.inj (htable.symm.trans hlast))
  rw [right_iff_walk hdirs hover, hexpected]
  have hlast : ∀ {last all}, v.tableWalk none path.dirs = .ok (last, all) →
      (v.stopDir path.dirs).map Fin.val = last := fun h =>
    congrArg fst (ok.inj (htable.symm.trans h))
  constructor
  · intro h d hd
    obtain ⟨last, all, hwalk', -, hanswer⟩ := h
    rw [← hlast hwalk', hd, map_some, answer_dir, scan_none_iff, found_joliet hj] at hanswer
    exact hanswer
  · intro h
    refine ⟨_, false, htable, nofun, ?_⟩
    cases hstop : v.stopDir path.dirs with
    | none => rfl
    | some d =>
      rw [map_some, answer_dir, scan_none_iff, found_joliet hj]
      exact h d hstop

theorem right_iff_joliet : v.Right path ↔ v.JolietServed path := by
  by_cases hdirs : 1 < dirsLen path.dirs
  · have hne := dirs_ne_nil hdirs
    have htable := tableWalk_none_joliet hj hne
    cases hwalk : v.walk v.root path.dirs with
    | some d =>
      rw [hwalk, stopDir_of_walk hne hwalk] at htable
      simp only [JolietServed, hwalk]
      cases hchild : v.child d path.name with
      | some c =>
        refine iff_of_false (not_right_of_child hj hdirs hwalk hchild) fun h => ?_
        exact some_ne_none c (h.2 hdirs)
      | none =>
        rw [right_iff_found hj hdirs hwalk htable hchild]
        exact ⟨fun h => ⟨h, fun _ => rfl⟩, fun h => h.1⟩
    | none =>
      rw [hwalk] at htable
      simp only [JolietServed, hwalk]
      exact right_iff_missing hj hdirs hwalk htable
  · have hwalk := walk_root_joliet hj hdirs
    rw [right_iff_root hdirs, expected_of_walk hwalk, ← found_joliet hj, scan_iff, JolietServed,
      hwalk]
    exact ⟨fun h => ⟨h, fun h' => absurd h' hdirs⟩, fun h => h.1⟩

end Joliet

theorem lookup_right_iff (v : Volume) (path : Path) :
    v.Right path ↔ if v.joliet then v.JolietServed path else v.IsoServed path := by
  cases hj : v.joliet with
  | true => exact right_iff_joliet hj
  | false => exact right_iff_iso hj

end Volume

/-! ## A missing component -/

/-- A directory record for the directory at block `lba`, 2048 bytes long. -/
def sampleRecord (len lba flags : UInt8) (name : List UInt8) : List UInt8 :=
  [len, 0, lba, 0, 0, 0, 0, 0, 0, lba, 0, 8, 0, 0, 0, 0, 8, 0] ++
    [126, 1, 1, 0, 0, 0, 0, flags, 0, 0, 1, 0, 0, 1] ++ name

/-- A directory with one entry besides the two every directory has. -/
def sampleSector (self parent lba flags name : UInt8) : List UInt8 :=
  sampleRecord 34 self 2 [1, 0] ++ sampleRecord 34 parent 2 [1, 1] ++
    sampleRecord 36 lba flags [2, 0, name, 0]

/-- The root in block 1 with a directory `a`, in block 2 this directory with a file `b`. -/
def sampleFs : Fs where
  joliet := true
  ptPtrs := [⟨1, 1, 1, fun _ => 0⟩, ⟨2, 2, 1, fun i => [0, 0x61].getD i 0⟩]
  mmDev i :=
    if i < 2048 then 0
    else if i < 4096 then (sampleSector 1 1 2 2 0x61).getD (i - 2048) 0
    else (sampleSector 2 1 3 0 0x62).getD (i - 4096) 0

theorem sample_record {base ofs : Nat} (len nameLen : UInt8) {rest : List Stop}
    (hlen : sampleFs.mmDev (base + ofs) = len) (hname : sampleFs.mmDev (base + ofs + 32) = nameLen)
    (hok : 34 ≤ len.toNat ∧ len.toNat % 2 = 0 ∧ ofs % 2048 + len.toNat ≤ 2048 ∧
      33 + nameLen.toNat ≤ len.toNat ∧ ofs < 2048)
    (hnext : Layout sampleFs.mmDev base 2048 (ofs + len.toNat) rest) :
    Layout sampleFs.mmDev base 2048 ofs (.record ofs :: rest) := by
  subst hlen hname
  exact .record hok.2.2.2.2 hok.1 hok.2.1 hok.2.2.1 hok.2.2.2.1 hnext

/-- Such a sector is a directory. -/
def sampleDirectory {base : Nat} (self parent lba flags name : UInt8) (hname : 0x20 ≤ name)
    (h : ∀ i < 2048, sampleFs.mmDev (base + i) =
      (sampleSector self parent lba flags name).getD i 0) :
    Directory true sampleFs.mmDev base where
  len := 2048
  stops := [.record 0, .record 34, .record 68, .padding 104]
  layout := by
    refine sample_record 34 1 (h 0 (by decide)) (h 32 (by decide)) (by decide) ?_
    refine sample_record 34 1 (h 34 (by decide)) (h 66 (by decide)) (by decide) ?_
    refine sample_record 36 2 (h 68 (by decide)) (h 100 (by decide)) (by decide) ?_
    refine .padding (by decide) (by decide) (fun i hge hlt => ?_) .done
    rw [h i hlt, getD_eq_default _ _ hge]
  len_lt := by decide
  len_eq := by
    simp only [h, Nat.reduceLT]
    rfl
  self := rfl
  self_len := h 32 (by decide)
  self_name := h 33 (by decide)
  ids ofs hofs := by
    rw [if_pos rfl]
    have hself : ∀ m : Buf, JolietId m (1 : UInt8).toNat := fun m u hu => absurd hu not_mem_nil
    simp only [mem_cons, Stop.record.injEq, reduceCtorEq, not_mem_nil, or_false] at hofs
    rcases hofs with rfl | rfl | rfl
    · rw [show sampleFs.mmDev (base + 0 + 32) = 1 from h 32 (by decide)]
      exact hself _
    · rw [show sampleFs.mmDev (base + 34 + 32) = 1 from h 66 (by decide)]
      exact hself _
    · rw [show sampleFs.mmDev (base + 68 + 32) = 2 from h 100 (by decide)]
      intro u hu
      have hunit : unit (fun i => sampleFs.mmDev (base + 68 + 33 + i)) 0 = name.toNat := by
        rw [unit, show sampleFs.mmDev (base + 68 + 33 + 2 * 0) = 0 from h 101 (by decide),
          show sampleFs.mmDev (base + 68 + 33 + (2 * 0 + 1)) = name from h 102 (by decide)]
        exact zero_add _
      obtain rfl : u = _ := mem_singleton.mp hu
      rw [hunit]
      exact ⟨UInt8.le_iff_toNat_le.mp hname, .inl (name.toNat_lt.trans (by decide))⟩

theorem sample_root_sector (i : Nat) (hi : i < 2048) :
    sampleFs.mmDev ((sampleFs.pt 0).lba * 2 ^ 11 + i) = (sampleSector 1 1 2 2 0x61).getD i 0 := by
  rw [show (sampleFs.pt 0).lba * 2 ^ 11 = 2048 from rfl]
  simp only [sampleFs]
  rw [if_neg (by omega), if_pos (by omega), Nat.add_sub_cancel_left]

theorem sample_dir_sector (i : Nat) (_ : i < 2048) :
    sampleFs.mmDev ((sampleFs.pt 1).lba * 2 ^ 11 + i) = (sampleSector 2 1 3 0 0x62).getD i 0 := by
  rw [show (sampleFs.pt 1).lba * 2 ^ 11 = 4096 from rfl]
  simp only [sampleFs]
  rw [if_neg (by omega), if_neg (by omega), Nat.add_sub_cancel_left]

def sampleDir : (i : Fin sampleFs.ptPtrs.length) →
    Directory true sampleFs.mmDev ((sampleFs.pt i).lba * 2 ^ 11)
  | ⟨0, _⟩ => sampleDirectory 1 1 2 2 0x61 (by decide) sample_root_sector
  | ⟨1, _⟩ => sampleDirectory 2 1 3 0 0x62 (by decide) sample_dir_sector

theorem sampleDir_len (i : Fin sampleFs.ptPtrs.length) : (sampleDir i).len = 2048 := by
  match i with
  | ⟨0, _⟩ => rfl
  | ⟨1, _⟩ => rfl

def sampleVolume : Volume where
  toFs := sampleFs
  count_lt := by decide
  root_rec := ⟨_, _, rfl, rfl, rfl, rfl⟩
  sorted := by
    refine pairwise_pair.mpr (.inr ⟨rfl, ?_⟩)
    decide
  rec_ids := by
    intro rec hrec
    obtain rfl : rec = _ := mem_singleton.mp hrec
    rw [if_pos (show sampleFs.joliet = true from rfl)]
    intro u hu
    obtain rfl : u = _ := mem_singleton.mp hu
    decide
  parent_le i hi hlt := by
    obtain rfl : i = 1 := by
      have : i < 2 := hlt
      omega
    decide
  lba_lt := by decide
  dir := sampleDir
  apart := by
    simp only [sampleDir_len]
    decide
  listed i j hi hpar := by
    match i, j with
    | ⟨0, _⟩, _ => exact absurd hi (lt_irrefl 0)
    | ⟨1, _⟩, ⟨1, _⟩ => exact absurd hpar (show ¬ 1 = 2 by decide)
    | ⟨1, _⟩, ⟨0, _⟩ => exact ⟨68, by decide +revert, by decide +revert⟩

/-- `a/z/b`. -/
def samplePath : Path where
  dirs := [[0x61], [0x7A]]
  name := [0x62]
  pieces := by simp

/-- There is no `z` in `a`, but the record of `a/b` is found. -/
theorem missing_component_found : sampleVolume.expected samplePath = none ∧
      sampleVolume.lookupDirent 3 (samplePath.string [] 0) = .ok (some (2 * 2048 + 68)) ∧
      ¬ sampleVolume.Right samplePath := by
  refine ⟨by decide +kernel, by decide +kernel, fun h => ?_⟩
  have hserved := (Volume.right_iff_joliet rfl).mp h
  have hentry := (hserved ⟨1, by decide⟩ (by decide +kernel)).2
  exact absurd hentry (by decide +kernel)

end Dgos.L3.Iso9660
