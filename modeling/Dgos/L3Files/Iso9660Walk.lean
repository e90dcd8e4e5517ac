import Dgos.L3Files.Iso9660Volume

/-!
# From the path in memory to its components

`lookup_dirent` works on a C string. `Path` is the same as a list of components, and
`tableWalk`, `Volume.scan` are what the code does with the components. The connection is
`lookupDirent_eq`: the search of the path table follows the components in front of the last
one, as long as they are found. Behind them it goes on with whatever stands in front of the next
`/` in memory, because `memchr` is called with the length of the whole path each time.
-/
namespace Dgos.L3.Iso9660

open L1.BinarySearch L1.Utf8 List Prod Nat Except
open Nat (le_add_right)

/-! ## Paths -/

/-- A path as its components. -/
structure Path where
  dirs : List (List UInt8)
  name : List UInt8
  pieces : ∀ piece ∈ name :: dirs, ∀ b ∈ piece, b ≠ 0 ∧ b ≠ 0x2F

/-- The length of the components with a `/` behind each. -/
def dirsLen (dirs : List (List UInt8)) : Nat := (dirs.map fun d => d.length + 1).sum

def bytesOf (dirs : List (List UInt8)) (name : List UInt8) : List UInt8 :=
  dirs.flatMap (fun d => d ++ [0x2F]) ++ name

def Path.bytes (path : Path) : List UInt8 := bytesOf path.dirs path.name

def Path.len (path : Path) : Nat := dirsLen path.dirs + path.name.length

theorem dirsLen_cons (d : List UInt8) (dirs : List (List UInt8)) :
    dirsLen (d :: dirs) = d.length + 1 + dirsLen dirs := by
  rw [dirsLen, map_cons, sum_cons, dirsLen]

theorem bytesOf_cons (d : List UInt8) (dirs : List (List UInt8)) (name : List UInt8) :
    bytesOf (d :: dirs) name = d ++ 0x2F :: bytesOf dirs name := by
  simp [bytesOf]

theorem length_bytesOf (dirs : List (List UInt8)) (name : List UInt8) :
    (bytesOf dirs name).length = dirsLen dirs + name.length := by
  induction dirs with
  | nil => simp [bytesOf, dirsLen]
  | cons d dirs ih =>
    rw [bytesOf_cons, length_append, length_cons, dirsLen_cons]
    omega

/-- Components with a `/` behind each, then a name and the terminator, from `p` on. -/
def PathAt (m : Buf) : Nat → List (List UInt8) → List UInt8 → Prop
  | p, [], name => (∀ i < name.length, m (p + i) = name.getD i 0) ∧ m (p + name.length) = 0
  | p, d :: dirs, name =>
    (∀ i < d.length, m (p + i) = d.getD i 0) ∧ m (p + d.length) = 0x2F ∧
      PathAt m (p + d.length + 1) dirs name

/-- The string is the path. -/
structure CString.Holds (s : CString) (path : Path) : Prop where
  at_zero : PathAt s.mem 0 path.dirs path.name
  len_eq : s.len = path.len

variable {m : Buf} {p n k i : Nat} {c : UInt8} {dirs : List (List UInt8)}

theorem PathAt.name {name : List UInt8}
    (h : PathAt m p dirs name) : PathAt m (p + dirsLen dirs) [] name := by
  induction dirs generalizing p with
  | nil => exact h
  | cons d dirs ih =>
    have := ih h.2.2
    rwa [dirsLen_cons, ← add_assoc]

theorem CString.Holds.name {s : CString} {path : Path} (h : s.Holds path) :
    PathAt s.mem (dirsLen path.dirs) [] path.name := by
  simpa using h.at_zero.name

theorem PathAt.last_sep {name : List UInt8} (h : PathAt m p dirs name) (hdirs : dirs ≠ []) :
    0 < dirsLen dirs ∧ m (p + (dirsLen dirs - 1)) = 0x2F := by
  induction dirs generalizing p with
  | nil => exact absurd rfl hdirs
  | cons d dirs ih =>
    rw [dirsLen_cons]
    refine ⟨by omega, ?_⟩
    cases dirs with
    | nil =>
      exact h.2.1
    | cons d' dirs =>
      obtain ⟨hpos, hsep⟩ := ih h.2.2 (cons_ne_nil _ _)
      rw [show p + (d.length + 1 + dirsLen (d' :: dirs) - 1) =
        p + d.length + 1 + (dirsLen (d' :: dirs) - 1) by omega]
      exact hsep

theorem getD_inside {pre d rest : List UInt8} (hi : i < d.length) (fill : UInt8) :
    (pre ++ (d ++ rest)).getD (pre.length + i) fill = d.getD i 0 := by
  rw [getD_append_right _ _ _ _ (Nat.le_add_right _ _), Nat.add_sub_cancel_left,
    getD_append _ _ _ _ hi, getD_eq_getElem _ _ hi, getD_eq_getElem _ _ hi]

theorem getD_behind (pre d rest : List UInt8) (i : Nat) (fill : UInt8) :
    (pre ++ (d ++ rest)).getD (pre.length + (d.length + i)) fill = rest.getD i fill := by
  rw [← append_assoc, getD_append_right _ _ _ _ (by rw [length_append]; omega), length_append]
  congr 1
  omega

/-- A path in a memory that is given as a list, with `fill` behind it. -/
theorem pathAt_getD (pre : List UInt8) (dirs : List (List UInt8)) (name junk : List UInt8)
    (fill : UInt8) :
    PathAt (fun i => (pre ++ (bytesOf dirs name ++ 0 :: junk)).getD i fill) pre.length dirs name := by
  induction dirs generalizing pre with
  | nil => exact ⟨fun i hi => getD_inside hi fill, getD_behind pre name (0 :: junk) 0 fill⟩
  | cons d dirs ih =>
    have hbytes : pre ++ (bytesOf (d :: dirs) name ++ 0 :: junk) =
        pre ++ (d ++ 0x2F :: (bytesOf dirs name ++ 0 :: junk)) := by
      simp [bytesOf_cons]
    rw [hbytes]
    refine ⟨fun i hi => getD_inside hi fill, getD_behind pre d (0x2F :: _) 0 fill, ?_⟩
    have := ih (pre ++ d ++ [0x2F])
    simpa [add_assoc] using this

theorem Path.ne_zero (path : Path) : ∀ b ∈ path.bytes, b ≠ 0 := by
  intro b hb
  rw [Path.bytes, bytesOf, mem_append, mem_flatMap] at hb
  rcases hb with ⟨d, hd, hb⟩ | hb
  · rcases mem_append.mp hb with hb | hb
    · exact (path.pieces d (mem_cons_of_mem _ hd) b hb).1
    · rw [mem_singleton.mp hb]
      decide
  · exact (path.pieces path.name mem_cons_self b hb).1

/-- The path in memory, with `junk` and then only `fill` behind its terminator. -/
def Path.string (path : Path) (junk : List UInt8) (fill : UInt8) : CString where
  mem i := (path.bytes ++ 0 :: junk).getD i fill
  len := path.len
  text i hi := by
    have hlen : i < path.bytes.length := by
      rw [Path.bytes, length_bytesOf]
      exact hi
    rw [getD_append _ _ _ _ hlen, getD_eq_getElem _ _ hlen]
    exact path.ne_zero _ (getElem_mem hlen)
  terminated := by
    have hlen : path.bytes.length ≤ path.len := by
      rw [Path.bytes, length_bytesOf, Path.len]
    rw [getD_append_right _ _ _ _ hlen, Path.len, ← length_bytesOf, Path.bytes, Nat.sub_self]
    rfl

theorem Path.string_holds (path : Path) (junk : List UInt8) (fill : UInt8) :
    (path.string junk fill).Holds path where
  at_zero := pathAt_getD [] path.dirs path.name junk fill
  len_eq := rfl

theorem Path.string_mem (path : Path) (junk : List UInt8) (fill : UInt8) (i : Nat) :
    (path.string junk fill).mem (dirsLen path.dirs + i) = (path.name ++ 0 :: junk).getD i fill := by
  have hlen := length_bytesOf path.dirs []
  rw [bytesOf, append_nil, length_nil, add_zero] at hlen
  show (path.bytes ++ 0 :: junk).getD _ fill = _
  rw [Path.bytes, bytesOf, append_assoc, getD_append_right _ _ _ _ (by omega), hlen,
    Nat.add_sub_cancel_left]

theorem Path.string_behind (path : Path) (junk : List UInt8) (fill : UInt8) (i : Nat) :
    (path.string junk fill).mem (path.len + 1 + i) = junk.getD i fill := by
  rw [Path.len, add_assoc, add_assoc, path.string_mem, add_comm 1 i]
  simpa using getD_behind [] path.name (0 :: junk) (i + 1) fill

/-! ## Looking for separators -/

theorem memchr_eq_some (hk : k < n) (hc : m (p + k) = c)
    (hfirst : ∀ i < k, m (p + i) ≠ c) : memchr m p c n = some k := by
  rw [memchr, find?_range_eq_some]
  exact ⟨decide_eq_true hc, mem_range.mpr hk, fun i hi => by simpa using hfirst i hi⟩

theorem memchr_spec (h : memchr m p c n = some k) :
    k < n ∧ m (p + k) = c ∧ ∀ i < k, m (p + i) ≠ c := by
  rw [memchr, find?_range_eq_some] at h
  refine ⟨mem_range.mp h.2.1, of_decide_eq_true h.1, fun i hi => ?_⟩
  simpa using h.2.2 i hi

theorem memchr_eq_none (h : ∀ i < n, m (p + i) ≠ c) : memchr m p c n = none := by
  rw [memchr, find?_range_eq_none]
  exact fun i hi => by simpa using h i hi

theorem splitPath_eq {s : CString} {path : Path} (h : s.Holds path) :
    Fs.splitPath s = (dirsLen path.dirs - 1, dirsLen path.dirs, path.name.length) := by
  have hslash : ∀ i < path.name.length, s.mem (dirsLen path.dirs + i) ≠ 0x2F := by
    intro i hi
    rw [h.name.1 i hi, getD_eq_getElem _ _ hi]
    exact (path.pieces path.name mem_cons_self _ (getElem_mem hi)).2
  rw [Fs.splitPath, h.len_eq, Path.len]
  by_cases hdirs : path.dirs = []
  · have hzero : dirsLen path.dirs = 0 := by
      rw [hdirs]
      rfl
    rw [hzero] at hslash ⊢
    rw [memrchr_eq_none fun i hi => by
      have := hslash i (by omega)
      rwa [zero_add] at this]
    simp
  · obtain ⟨hpos, hsep⟩ := h.at_zero.last_sep hdirs
    rw [zero_add] at hsep
    have hmemrchr : memrchr s.mem 0 0x2F (dirsLen path.dirs + path.name.length) =
        some (dirsLen path.dirs - 1) := by
      refine memrchr_eq_some (by omega) (by rw [zero_add, hsep]) fun i hi hlt => ?_
      have := hslash (i - dirsLen path.dirs) (by omega)
      rwa [add_sub_of_le (by omega), ← zero_add i] at this
    rw [hmemrchr]
    simp only [mk.injEq, true_and]
    omega

/-! ## Searching the path table -/

namespace Volume

variable {v : Volume} {fuel q : Nat} {piece name : List UInt8} {path : Path} {s : CString}
  {last r : Option Nat}

theorem lookupPathCmp_text (h : TextAt m p piece) (rec : PtRec) (parent : Nat) :
    v.lookupPathCmp rec m ⟨p, piece.length, parent⟩ =
      v.lookupPathCmp rec (text piece) ⟨0, piece.length, parent⟩ := by
  rw [Fs.lookupPathCmp]
  split
  · rw [lookupPathCmpUtf16be, lookupPathCmpUtf16be, nameCompareUtf16be_same h.same]
  · rw [lookupPathCmpAscii, lookupPathCmpAscii, nameCompareAscii_same h.same]

theorem searchTable_text (h : TextAt m p piece) (parent : Nat) :
    v.searchTable m ⟨p, piece.length, parent⟩ = v.search parent piece := by
  rw [search, Fs.searchTable, Fs.searchTable]
  simp [lookupPathCmp_text h]

theorem search_lt {parent : Nat}
    (h : v.search parent piece = .ok (some i)) : i < v.ptPtrs.length := by
  obtain ⟨r, hr, h⟩ := bind_eq_ok h
  split at h
  · cases h
  · next hneg =>
    obtain rfl := Option.some.inj (ok.inj h)
    exact (binarySearch_found hr (Int.not_lt.mp hneg)).1

/-- The number of the directory found last; the root has number 1. -/
def number : Option Nat → Nat
  | none => 1
  | some i => i + 1

/-- The search for one component after the other: the last directory that was found, and
whether all were found. -/
def tableWalk (v : Volume) : Option Nat → List (List UInt8) → Except Err (Option Nat × Bool)
  | last, [] => .ok (last, true)
  | last, piece :: rest => do
    match ← v.search (number last) piece with
    | none => .ok (last, false)
    | some next => tableWalk v (some next) rest

theorem tableWalk_lt {all : Bool} (hlast : ∀ i, last = some i → i < v.ptPtrs.length)
    (h : v.tableWalk last dirs = .ok (r, all)) : ∀ i, r = some i → i < v.ptPtrs.length := by
  induction dirs generalizing last with
  | nil =>
    obtain rfl : last = r := congrArg fst (ok.inj h)
    exact hlast
  | cons piece rest ih =>
    obtain ⟨next, hnext, h⟩ := bind_eq_ok h
    cases next with
    | none =>
      obtain rfl : last = r := congrArg fst (ok.inj h)
      exact hlast
    | some next =>
      refine ih (fun i hi => ?_) h
      rw [← Option.some.inj hi]
      exact search_lt hnext

/-- The loop follows the components of the path, then it goes on behind them. -/
theorem lookupPathLoop_dirs {pathLen : Nat} (h : PathAt m p dirs name)
    (hdirs : ∀ d ∈ dirs, ∀ b ∈ d, b ≠ 0x2F) (hlen : dirsLen dirs ≤ pathLen) (last : Option Nat) :
    v.lookupPathLoop m pathLen (fuel + dirs.length) last (number last) p =
      (v.tableWalk last dirs >>= fun r =>
        if r.2 then v.lookupPathLoop m pathLen fuel r.1 (number r.1) (p + dirsLen dirs)
        else .ok r.1) := by
  induction dirs generalizing p last with
  | nil => rfl
  | cons d dirs ih =>
    obtain ⟨hbytes, hsep, hrest⟩ := h
    rw [dirsLen_cons] at hlen
    have hmemchr : memchr m p 0x2F pathLen = some d.length := by
      refine memchr_eq_some (by omega) hsep fun i hi => ?_
      rw [hbytes i hi, getD_eq_getElem _ _ hi]
      exact hdirs d mem_cons_self _ (getElem_mem hi)
    rw [length_cons, ← add_assoc, Fs.lookupPathLoop, hmemchr]
    simp only
    rw [searchTable_text ⟨hbytes, .inl hsep⟩, tableWalk]
    cases hsearch : v.search (number last) d with
    | error e => rfl
    | ok next =>
      cases next with
      | none => rfl
      | some next =>
        have := ih hrest (fun d hd => hdirs d (mem_cons_of_mem _ hd)) (by omega) (some next)
        rw [dirsLen_cons, ← add_assoc]
        exact this

/-- What stands in front of a separator behind the path: the name, its terminator, and what
was in memory. -/
theorem behind_textAt {n : Nat} (h : PathAt m q [] name)
    (hname : ∀ b ∈ name, b ≠ 0x2F) (hk : memchr m q 0x2F n = some k) :
    ∃ junk : List UInt8, (∀ b ∈ junk, b ≠ 0x2F) ∧ k = (name ++ 0 :: junk).length ∧
      TextAt m q (name ++ 0 :: junk) := by
  obtain ⟨hlt, hsep, hfirst⟩ := memchr_spec hk
  have hgt : name.length < k := by
    rcases lt_trichotomy k name.length with hk' | hk' | hk'
    · rw [h.1 k hk', getD_eq_getElem _ _ hk'] at hsep
      exact absurd hsep (hname _ (getElem_mem hk'))
    · rw [hk', h.2] at hsep
      exact absurd hsep (by decide)
    · exact hk'
  obtain ⟨j, rfl⟩ : ∃ j, k = name.length + (1 + j) := ⟨k - name.length - 1, by omega⟩
  have hname : peek m q name.length = name := ext_getElem (peek_length _ _ _) fun i _ hi => by
    simp [peek, h.1 i hi, hi]
  have hpeek : name ++ 0 :: peek m (q + name.length + 1) j = peek m q (name.length + (1 + j)) := by
    rw [peek_add, peek_add, hname, ← h.2]
    rfl
  have hlen := congrArg length hpeek
  rw [peek_length] at hlen
  refine ⟨peek m (q + name.length + 1) j, fun b hb => ?_, hlen.symm, fun i hi => ?_, ?_⟩
  · obtain ⟨i, hi, rfl⟩ := mem_map.mp hb
    rw [mem_range] at hi
    have := hfirst (name.length + 1 + i) (by omega)
    rwa [← add_assoc] at this
  · rw [hpeek, getD_peek m q (hlen ▸ hi)]
  · rw [hlen]
    exact .inl hsep

/-- Whatever is in memory behind the path, no further directory is found there. -/
def Clear (v : Volume) (path : Path) (last : Option Nat) : Prop :=
  ∀ junk : List UInt8, (∀ b ∈ junk, b ≠ 0x2F) → path.name.length + 1 + junk.length < path.len →
    v.search (number last) (path.name ++ 0 :: junk) = .ok none

theorem lookupPathLoop_clear (h : PathAt m q [] path.name) (hclear : v.Clear path last) :
    v.lookupPathLoop m path.len (fuel + 1) last (number last) q = .ok last := by
  rw [Fs.lookupPathLoop]
  cases hk : memchr m q 0x2F path.len with
  | none => rfl
  | some k =>
    obtain ⟨junk, hjunk, hlen, htext⟩ := behind_textAt h
      (fun b hb => (path.pieces path.name mem_cons_self b hb).2) hk
    have hlt := (memchr_spec hk).1
    subst hlen
    rw [length_append, length_cons] at hlt
    simp only
    rw [searchTable_text htext, hclear junk hjunk (by omega)]
    rfl

/-! ## Whole calls -/

theorem scanLoop_text {base len ofs : Nat} (h : TextAt m p name) :
    v.scanLoop m p name.length base len fuel ofs =
      v.scanLoop (text name) 0 name.length base len fuel ofs := by
  induction fuel generalizing ofs with
  | zero => rfl
  | succ fuel ih =>
    rw [Fs.scanLoop, Fs.scanLoop, Fs.compareAt, Fs.compareAt, nameCompare_same h.same]
    simp [ih]

/-- What is left to do with the directory that the search of the path table gave. -/
def answer (v : Volume) (name : List UInt8) : Option Nat → Except Err (Option Nat)
  | none => .ok none
  | some i => if h : i < v.ptPtrs.length then v.scan ⟨i, h⟩ name else .error .outOfBounds

theorem lookupSector_eq {lba : Nat} (h : lba < 2 ^ 31) :
    Fs.lookupSector (Fat.signExtend lba) = lba * 2 ^ 11 := by
  rw [Fs.lookupSector, Fat.signExtend, if_pos h, mod_eq_of_lt (by omega)]

theorem direntSize_eq (d : v.Dir) : v.direntSize (v.base d) = (v.dir d).len := by
  have hlen := (v.dir d).len_eq
  have hlt := (v.dir d).len_lt
  exact (congrArg Fat.signExtend hlen).trans (if_pos hlt)

theorem lookupDirent_eq (h : s.Holds path) (hr : v.pathRec fuel s (dirsLen path.dirs - 1) = .ok r)
    (hlt : ∀ i, r = some i → i < v.ptPtrs.length) :
    v.lookupDirent fuel s = v.answer path.name r := by
  rw [Fs.lookupDirent, splitPath_eq h]
  simp only
  rw [ok_bind hr]
  cases r with
  | none => rfl
  | some i =>
    have hi := hlt i rfl
    have hbase : Fs.lookupSector (Fat.signExtend (v.pt i).lba) = v.base ⟨i, hi⟩ := by
      refine lookupSector_eq (v.lba_lt _ ?_)
      rw [pt_eq hi]
      exact getElem_mem hi
    simp only [answer, dif_pos hi, hbase, direntSize_eq, scan]
    exact scanLoop_text ⟨h.name.1, .inr h.name.2⟩

theorem lookupDirent_error (h : s.Holds path) {e : Err}
    (he : v.pathRec fuel s (dirsLen path.dirs - 1) = .error e) :
    v.lookupDirent fuel s = .error e := by
  rw [Fs.lookupDirent, splitPath_eq h]
  simp only
  rw [he]
  rfl

/-- The search of the path table for a path with a directory part. -/
theorem pathRec_eq (h : s.Holds path) (hdirs : 1 < dirsLen path.dirs) (fuel : Nat) :
    v.pathRec (fuel + path.dirs.length) s (dirsLen path.dirs - 1) =
      (v.tableWalk none path.dirs >>= fun r =>
        if r.2 then
          v.lookupPathLoop s.mem path.len fuel r.1 (number r.1) (dirsLen path.dirs)
        else .ok r.1) := by
  have hslash : ∀ d ∈ path.dirs, ∀ b ∈ d, b ≠ 0x2F := fun d hd b hb =>
    (path.pieces d (mem_cons_of_mem _ hd) b hb).2
  have hloop : v.lookupPathLoop s.mem path.len (fuel + path.dirs.length) none 1 0 = _ :=
    lookupPathLoop_dirs h.at_zero hslash (le_add_right _ _) none
  rw [zero_add] at hloop
  rw [Fs.pathRec, if_pos (by omega), h.len_eq]
  exact hloop

end Volume

end Dgos.L3.Iso9660
