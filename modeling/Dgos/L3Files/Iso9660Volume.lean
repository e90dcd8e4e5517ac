import Dgos.L3Files.Iso9660Names

/-!
# ISO 9660 volumes, and what a path names on them

`Volume` is a mounted volume as the standard wants it: the directories' records one behind the
other in sectors that end in zeros, the identifiers of one of the two kinds, the path table
sorted by parent and identifier, with a directory record in the parent for each entry.

`expected` is the record that a path names: each component in front of the last one is an
entry of the path table below the directory reached before, the last one is a record there.

Results:
* `scan_iff`: the scan of a directory gives the first record that compares equal, exactly when
  it reads no padding at the end of a sector as the name (`Quiet`). A padding is compared like a
  record; if it is short its name is taken from the next sector.
* `search_joliet`: the search of the path table of a Joliet volume finds what is there.
-/
namespace Dgos.L3.Iso9660

open L1.BinarySearch L1.Utf8 List Option Bool Except Fs PtRec Nat

/-! ## Identifiers -/

/-- Letters, digits and the underscore. -/
def DChar (b : UInt8) : Prop :=
  0x30 ≤ b ∧ b ≤ 0x39 ∨ 0x41 ≤ b ∧ b ≤ 0x5A ∨ b = 0x5F

/-- `NAME.EXT;VERSION`, where one of `NAME` and `EXT` may be empty. -/
structure IsoFile (name : Buf) (len dot semi : Nat) : Prop where
  dot_lt : dot < semi
  semi_lt : semi < len
  not_empty : 1 < semi
  dot_eq : name dot = 0x2E
  semi_eq : name semi = 0x3B
  chars : ∀ i < semi, i ≠ dot → DChar (name i)
  version : ∀ i, semi < i → i < len → 0x30 ≤ name i ∧ name i ≤ 0x39

/-- The identifiers of ISO 9660: the directory itself (a byte 0) and its parent (a byte 1),
other directories, files. -/
def IsoId (name : Buf) (len : Nat) : Prop :=
  len = 1 ∧ name 0 < 2 ∨ (∀ i < len, DChar (name i)) ∨ ∃ dot semi, IsoFile name len dot semi

theorem memrchr_eq_none {m : Buf} {c : UInt8} {n : Nat} (h : ∀ i < n, m i ≠ c) :
    memrchr m 0 c n = none := by
  rw [memrchr, find?_eq_none]
  intro i hi
  rw [mem_reverse, mem_range] at hi
  simpa using h i hi

theorem DChar.ne {b : UInt8} (h : DChar b) : b ≠ 0x2E ∧ b ≠ 0x3B ∧ char32OfChar b ≠ 0x20 := by
  simp only [DChar, UInt8.le_iff_toNat_le, ← UInt8.toNat_inj, UInt8.reduceToNat] at h
  simp only [ne_eq, ← UInt8.toNat_inj, UInt8.reduceToNat, char32OfChar]
  have hlt : b.toNat < 128 := by omega
  rw [if_pos hlt]
  omega

theorem nameCompareAscii_self {name : Buf} (h : name 0 < 2) (m : Buf) (find findLen : Nat) :
    nameCompareAscii name 1 m find findLen = nameCompareAscii (fun _ => 0) 0 m find findLen := by
  have hne : ∀ c : UInt8, 2 ≤ c → ∀ i < 1, name i ≠ c := by
    intro c hc i hi heq
    obtain rfl : i = 0 := by omega
    rw [heq] at h
    exact absurd hc (by simpa using h)
  exact nameCompareAscii_plain (memrchr_eq_none (hne _ (by decide)))
    (memrchr_eq_none (hne _ (by decide))) m find findLen

theorem nameCompareAscii_dir {name : Buf} {len : Nat} (h : ∀ i < len, DChar (name i)) (m : Buf)
    (find findLen : Nat) :
    nameCompareAscii name len m find findLen = nameCompareAscii (fun _ => 0) 0 m find findLen :=
  nameCompareAscii_plain (memrchr_eq_none fun i hi => (h i hi).ne.1)
    (memrchr_eq_none fun i hi => (h i hi).ne.2.1) m find findLen

/-- No component compares equal to the identifier of a file. -/
theorem IsoFile.differs {name : Buf} {len dot semi : Nat} (h : IsoFile name len dot semi) (m : Buf)
    (find findLen : Nat) : ∃ c, nameCompareAscii name len m find findLen = .ok c ∧ c ≠ 0 := by
  have hfirst : char32OfChar (name 0) ≠ 0x20 := by
    by_cases hdot : dot = 0
    · rw [← hdot, h.dot_eq]
      decide
    · exact (h.chars 0 (lt_trans zero_lt_one h.not_empty) (Ne.symm hdot)).ne.2.2
  have hsemi : memrchr name 0 0x3B len = some (semi - 1 + 1) := by
    have := h.not_empty
    rw [Nat.sub_add_cancel (by omega)]
    refine memrchr_eq_some h.semi_lt (by rw [zero_add, h.semi_eq]) fun i hi hlen heq => ?_
    have hdigit := (h.version i hi hlen).2
    rw [zero_add] at heq
    rw [heq] at hdigit
    exact absurd hdigit (by decide)
  exact nameCompareAscii_file hfirst hsemi m find findLen

/-- The characters of an identifier; without the version on a volume with ISO 9660 names. -/
def idChars (joliet : Bool) (name : Buf) (len : Nat) : List Nat :=
  if joliet then units name len
  else if len = 1 ∧ name 0 < 2 then []
  else ((peek name 0 len).takeWhile (· ≠ 0x3B)).map UInt8.toNat

def trimBlanks (cs : List (Option Nat)) : List (Option Nat) := cs.rdropWhile (· = some 0x20)

/-- Name and extension without the blanks behind them; both are padded with blanks when they
are compared. -/
def isoKey (cs : List (Option Nat)) : List (Option Nat) × List (Option Nat) :=
  let ext := (cs.reverse.takeWhile (· ≠ some 0x2E)).reverse
  if some 0x2E ∈ cs then (trimBlanks (cs.take (cs.length - ext.length - 1)), trimBlanks ext)
  else (trimBlanks cs, [])

/-- The component is the name with these characters. -/
def names (joliet : Bool) (chars : List Nat) (piece : List UInt8) : Prop :=
  if joliet then trimZeros (pieceChars piece) = chars.map some
  else isoKey (pieceChars piece) = isoKey (chars.map some)

instance (joliet : Bool) (chars : List Nat) (piece : List UInt8) :
    Decidable (names joliet chars piece) := by
  unfold names
  infer_instance

/-! ## Directories -/

/-- What the scan of a directory comes by. -/
inductive Stop
  | record (ofs : Nat)
  | padding (ofs : Nat)
  deriving DecidableEq

def Stop.ofs : Stop → Nat
  | .record ofs => ofs
  | .padding ofs => ofs

/-- The end of the sector with `ofs`. -/
def sectorEnd (ofs : Nat) : Nat := (ofs + 2047) / 2048 * 2048

/-- The records of a directory of `len` bytes, from `ofs` on: records do not cross the end of a
sector, and behind the last record of a sector there are zeros. -/
inductive Layout (dev : Buf) (base len : Nat) : Nat → List Stop → Prop
  | done : Layout dev base len len []
  | record {ofs : Nat} {rest : List Stop} (lt : ofs < len)
      (long : 34 ≤ (dev (base + ofs)).toNat) (even : (dev (base + ofs)).toNat % 2 = 0)
      (inside : ofs % 2048 + (dev (base + ofs)).toNat ≤ 2048)
      (name : 33 + (dev (base + ofs + 32)).toNat ≤ (dev (base + ofs)).toNat)
      (next : Layout dev base len (ofs + (dev (base + ofs)).toNat) rest) :
      Layout dev base len ofs (.record ofs :: rest)
  | padding {ofs : Nat} {rest : List Stop} (lt : ofs < len) (begun : ofs % 2048 ≠ 0)
      (zeros : ∀ i, ofs ≤ i → i < sectorEnd ofs → dev (base + i) = 0)
      (next : Layout dev base len (sectorEnd ofs) rest) :
      Layout dev base len ofs (.padding ofs :: rest)

/-- A directory at `base`. Its first record is its own and has its length. -/
structure Directory (joliet : Bool) (dev : Buf) (base : Nat) where
  len : Nat
  stops : List Stop
  layout : Layout dev base len 0 stops
  len_lt : len < 2 ^ 31
  len_eq : (dev (base + 10)).toNat + 2 ^ 8 * (dev (base + 11)).toNat +
    2 ^ 16 * (dev (base + 12)).toNat + 2 ^ 24 * (dev (base + 13)).toNat = len
  self : stops.head? = some (.record 0)
  self_len : dev (base + 32) = 1
  self_name : dev (base + 33) = 0
  ids : ∀ ofs, Stop.record ofs ∈ stops →
    if joliet then JolietId (fun i => dev (base + ofs + 33 + i)) (dev (base + ofs + 32)).toNat
    else IsoId (fun i => dev (base + ofs + 33 + i)) (dev (base + ofs + 32)).toNat

/-! ## Volumes -/

/-- The characters of a path table entry. -/
def PtRec.chars (joliet : Bool) (rec : PtRec) : List Nat := idChars joliet rec.name rec.diLen

/-- The order of the path table: by parent, then by identifier. -/
def PtRec.Less (joliet : Bool) (r s : PtRec) : Prop :=
  r.parentDn < s.parentDn ∨ r.parentDn = s.parentDn ∧ r.chars joliet < s.chars joliet

/-- A volume without extended attribute records. Block numbers are `int32_t`. -/
structure Volume extends Fs where
  count_lt : ptPtrs.length < 2 ^ 16
  root_rec : ∃ rec rest, ptPtrs = rec :: rest ∧ rec.parentDn = 1 ∧ rec.diLen = 1 ∧ rec.name 0 = 0
  sorted : ptPtrs.Pairwise (PtRec.Less joliet)
  rec_ids : ∀ rec ∈ ptPtrs.tail,
    if joliet then JolietId rec.name rec.diLen else ∀ i < rec.diLen, DChar (rec.name i)
  parent_le : ∀ i, 0 < i → i < ptPtrs.length → 0 < (toFs.pt i).parentDn ∧ (toFs.pt i).parentDn ≤ i
  lba_lt : ∀ rec ∈ ptPtrs, rec.lba < 2 ^ 31
  dir : (i : Fin ptPtrs.length) → Directory joliet mmDev ((toFs.pt i).lba * 2 ^ 11)
  apart : ∀ i j : Fin ptPtrs.length, i ≠ j →
    (toFs.pt i).lba * 2 ^ 11 + (dir i).len ≤ (toFs.pt j).lba * 2 ^ 11 ∨
    (toFs.pt j).lba * 2 ^ 11 + (dir j).len ≤ (toFs.pt i).lba * 2 ^ 11
  listed : ∀ i j : Fin ptPtrs.length, 0 < i.val →
    (toFs.pt i).parentDn = j + 1 → ∃ ofs, Stop.record ofs ∈ (dir j).stops ∧
      idChars joliet (fun k => mmDev ((toFs.pt j).lba * 2 ^ 11 + ofs + 33 + k))
        (mmDev ((toFs.pt j).lba * 2 ^ 11 + ofs + 32)).toNat =
      (toFs.pt i).chars joliet

namespace Volume

variable (v : Volume)

/-- The number of a directory in the path table, from 0 on. -/
abbrev Dir : Type := Fin v.ptPtrs.length

theorem length_pos : 0 < v.ptPtrs.length := by
  obtain ⟨rec, rest, h, -⟩ := v.root_rec
  rw [h]
  exact succ_pos _

def root : v.Dir := ⟨0, v.length_pos⟩

def base (d : v.Dir) : Nat := (v.pt d).lba * 2 ^ 11

/-- The directory that a component names in directory `d`. -/
def child (d : v.Dir) (piece : List UInt8) : Option v.Dir :=
  (List.finRange v.ptPtrs.length).find? fun i =>
    (v.pt i).parentDn = d + 1 ∧ names v.joliet ((v.pt i).chars v.joliet) piece

/-- The directory that some components name one after the other. -/
def walk (d : v.Dir) : List (List UInt8) → Option v.Dir
  | [] => some d
  | piece :: rest => (v.child d piece).bind fun c => walk c rest

/-- The characters of the identifier of a record. -/
def recordChars (de : Nat) : List Nat :=
  idChars v.joliet (fun k => v.mmDev (de + 33 + k)) (v.mmDev (de + 32)).toNat

def records : List Stop → List Nat
  | [] => []
  | .record ofs :: rest => ofs :: records rest
  | .padding _ :: rest => records rest

/-- The name of a record compared with a component. -/
def compare (de : Nat) (name : List UInt8) : Except Err Int :=
  v.compareAt de (text name) 0 name.length

/-- The scan of a directory. -/
def scan (d : v.Dir) (name : List UInt8) : Except Err (Option Nat) :=
  v.scanLoop (text name) 0 name.length (v.base d) (v.dir d).len ((v.dir d).len + 1) 0

/-- No padding is read as the name, up to the first record that compares equal. -/
def QuietFrom (base : Nat) (name : List UInt8) : List Stop → Prop
  | [] => True
  | .record ofs :: rest => v.compare (base + ofs) name = .ok 0 ∨ QuietFrom base name rest
  | .padding ofs :: rest =>
    (∃ c, v.compare (base + ofs) name = .ok c ∧ c ≠ 0) ∧ QuietFrom base name rest

def Quiet (d : v.Dir) (name : List UInt8) : Prop := v.QuietFrom (v.base d) name (v.dir d).stops

/-- The record that a component names in a directory. -/
def entry (d : v.Dir) (name : List UInt8) : Option Nat :=
  ((records (v.dir d).stops).find? fun ofs =>
    names v.joliet (v.recordChars (v.base d + ofs)) name).map (v.base d + ·)

/-! ## The scan of a directory -/

/-- The scan as a walk over the stops. -/
def scanStops (base : Nat) (name : List UInt8) : List Stop → Except Err (Option Nat)
  | [] => .ok none
  | stop :: rest => do
    let cmp ← v.compare (base + stop.ofs) name
    if cmp = 0 then .ok (some (base + stop.ofs)) else scanStops base name rest

theorem lt_sectorEnd {ofs : Nat} (h : ofs % 2048 ≠ 0) : ofs < sectorEnd ofs := by
  rw [sectorEnd]
  omega

variable {v} {base len ofs x : Nat} {stops : List Stop} {name : List UInt8}

theorem scanLoop_eq (h : Layout v.mmDev base len ofs stops) {fuel : Nat}
    (hfuel : len - ofs < fuel) :
    v.scanLoop (text name) 0 name.length base len fuel ofs = v.scanStops base name stops := by
  induction h generalizing fuel with
  | done =>
    obtain _ | fuel := fuel
    · omega
    rw [scanLoop, if_neg (lt_irrefl len), scanStops]
  | @record ofs rest lt long even inside name next ih =>
    obtain _ | fuel := fuel
    · omega
    have hnext : v.nextDirent base ofs = ofs + (v.mmDev (base + ofs)).toNat := by
      simp only [nextDirent]
      rw [if_pos (by omega)]
      omega
    rw [scanLoop, if_pos lt, hnext, ih (by omega)]
    rfl
  | @padding ofs rest lt begun zeros next ih =>
    obtain _ | fuel := fuel
    · omega
    have hend := lt_sectorEnd begun
    have hnext : v.nextDirent base ofs = sectorEnd ofs := by
      simp only [nextDirent, zeros ofs (le_refl ofs) hend]
      rfl
    rw [scanLoop, if_pos lt, hnext, ih (by omega)]
    rfl

/-- The stops lie in the directory, one behind the other. -/
structure InOrder (len ofs : Nat) (stops : List Stop) : Prop where
  le : ∀ s ∈ stops, ofs ≤ s.ofs ∧ s.ofs < len
  nodup : (stops.map Stop.ofs).Nodup

theorem InOrder.cons {s : Stop} {next : Nat} (h : InOrder len next stops) (hlt : s.ofs < len)
    (hnext : s.ofs < next) : InOrder len s.ofs (s :: stops) := by
  refine ⟨forall_mem_cons.2 ⟨⟨le_rfl, hlt⟩, fun r hr => ?_⟩, nodup_cons.2 ⟨fun hs => ?_, h.nodup⟩⟩
  · have := h.le r hr
    omega
  · obtain ⟨r, hr, heq⟩ := mem_map.1 hs
    have := h.le r hr
    omega

theorem inOrder (h : Layout v.mmDev base len ofs stops) : InOrder len ofs stops := by
  induction h with
  | done => exact ⟨nofun, nodup_nil⟩
  | @record ofs _ lt long even inside name next ih =>
    exact ih.cons (s := .record ofs) lt (Nat.lt_add_of_pos_right (by omega))
  | @padding ofs _ lt begun zeros next ih =>
    exact ih.cons (s := .padding ofs) lt (lt_sectorEnd begun)

/-- The first record that compares equal. -/
def firstEqual (v : Volume) (base : Nat) (name : List UInt8) (stops : List Stop) : Option Nat :=
  ((records stops).find? fun ofs => v.compare (base + ofs) name = .ok 0).map (base + ·)

section

variable (hcmp : ∀ ofs, .record ofs ∈ stops → ∃ c, v.compare (base + ofs) name = .ok c)
include hcmp

theorem scanStops_of_quiet (hquiet : v.QuietFrom base name stops) :
    v.scanStops base name stops = .ok (v.firstEqual base name stops) := by
  induction stops with
  | nil => rfl
  | cons s stops ih =>
    have hrest := ih fun ofs h => hcmp ofs (mem_cons_of_mem _ h)
    rw [scanStops]
    cases s with
    | record ofs =>
      obtain ⟨c, hc⟩ := hcmp ofs mem_cons_self
      rw [Stop.ofs, ok_bind hc]
      by_cases h0 : c = 0
      · subst h0
        rw [firstEqual, records, find?_cons_of_pos (by simpa using hc)]
        rfl
      · have hne : ¬ v.compare (base + ofs) name = .ok 0 := by
          rw [hc]
          exact fun h => h0 (ok.inj h)
        rw [if_neg h0, hrest (hquiet.resolve_left hne), firstEqual, firstEqual, records,
          find?_cons_of_neg (by simpa using hne)]
    | padding ofs =>
      obtain ⟨⟨c, hc, h0⟩, hquiet⟩ := hquiet
      rw [Stop.ofs, ok_bind hc, if_neg h0, hrest hquiet]
      rfl

/-- Otherwise the scan fails or returns a padding. -/
theorem quiet_of_scanStops {x : Option Nat} (h : v.scanStops base name stops = .ok x)
    (hx : ∀ ofs, .padding ofs ∈ stops → x ≠ some (base + ofs)) : v.QuietFrom base name stops := by
  induction stops with
  | nil => trivial
  | cons s stops ih =>
    have hrest := ih (fun ofs h => hcmp ofs (mem_cons_of_mem _ h))
    obtain ⟨c, hc, h⟩ := bind_eq_ok h
    cases s with
    | record ofs =>
      split at h
      · next h0 =>
        subst h0
        exact .inl hc
      · exact .inr (hrest h fun ofs h => hx ofs (mem_cons_of_mem _ h))
    | padding ofs =>
      split at h
      · exact absurd (ok.inj h).symm (hx ofs mem_cons_self)
      · next h0 =>
        exact ⟨⟨c, hc, h0⟩, hrest h fun ofs h => hx ofs (mem_cons_of_mem _ h)⟩

end

theorem mem_records {stops : List Stop} {ofs : Nat} :
    ofs ∈ records stops ↔ .record ofs ∈ stops := by
  induction stops with
  | nil => simp [records]
  | cons s stops ih => cases s <;> simp [records, ih]

theorem padding_not_record (h : Layout v.mmDev base len ofs stops) {o : Nat}
    (hpad : .padding o ∈ stops) : .record o ∉ stops :=
  fun hrec => nomatch inj_on_of_nodup_map (inOrder h).nodup hpad hrec rfl

theorem firstEqual_mem (h : v.firstEqual base name stops = some x) :
    ∃ o, .record o ∈ stops ∧ x = base + o := by
  obtain ⟨o, hfind, rfl⟩ := map_eq_some_iff.mp h
  exact ⟨o, mem_records.mp (mem_of_find?_eq_some hfind), rfl⟩

theorem scanStops_mem (h : v.scanStops base name stops = .ok (some x)) :
    ∃ s ∈ stops, x = base + s.ofs := by
  induction stops with
  | nil => cases h
  | cons s stops ih =>
    obtain ⟨c, -, h⟩ := bind_eq_ok h
    split at h
    · exact ⟨s, mem_cons_self, (some.inj (ok.inj h)).symm⟩
    · obtain ⟨s', hs', hx⟩ := ih h
      exact ⟨s', mem_cons_of_mem _ hs', hx⟩

/-! ## Identifiers of records -/

section Records

variable {d : v.Dir}

theorem scan_eq (v : Volume) (d : v.Dir) (name : List UInt8) :
    v.scan d name = v.scanStops (v.base d) name (v.dir d).stops :=
  scanLoop_eq (v.dir d).layout (lt_succ_self _)

theorem compare_joliet (name : List UInt8) (hj : v.joliet = true)
    (hid : .record ofs ∈ (v.dir d).stops) : ∃ c, v.compare (v.base d + ofs) name = .ok c ∧
      (c = 0 ↔ names v.joliet (v.recordChars (v.base d + ofs)) name) := by
  have hid := (v.dir d).ids ofs hid
  rw [if_pos hj] at hid
  refine ⟨compareChars (pieceChars name) (v.recordChars (v.base d + ofs)), ?_, ?_⟩
  · rw [compare, compareAt, nameCompare, if_pos hj, recordChars, idChars, if_pos hj]
    exact nameCompareUtf16be_text hid name
  · rw [names, if_pos hj, recordChars, idChars, if_pos hj]
    exact compareChars_eq_zero_iff (decoded_points _ _ _ _) hid.words

/-- A record compares equal to blanks at most. -/
theorem compare_iso (name : List UInt8) (hj : v.joliet = false) (hid : .record ofs ∈ (v.dir d).stops) :
    ∃ c, v.compare (v.base d + ofs) name = .ok c ∧ (c = 0 → Blank name) := by
  have hid := (v.dir d).ids ofs hid
  rw [if_neg (eq_false_iff.1 hj)] at hid
  rw [compare, compareAt, nameCompare, if_neg (eq_false_iff.1 hj)]
  have hplain : ∃ c, nameCompareAscii (fun _ => 0) 0 (text name) 0 name.length = .ok c ∧
      (c = 0 → Blank name) := by
    obtain ⟨c, hc⟩ := nameCompareAscii_empty (text name) 0 name.length
    refine ⟨c, hc, fun h0 => ?_⟩
    rw [Blank, hc, h0]
  rcases hid with ⟨hlen, hself⟩ | hdir | ⟨dot, semi, hfile⟩
  · rw [show v.mmDev (v.base d + ofs + 32) = 1 from UInt8.toNat_inj.mp hlen]
    have heq : nameCompareAscii (fun i => v.mmDev (v.base d + ofs + 33 + i)) 1 _ _ _ = _ :=
      nameCompareAscii_self hself (text name) 0 name.length
    exact heq ▸ hplain
  · have heq : nameCompareAscii (fun i => v.mmDev (v.base d + ofs + 33 + i)) _ _ _ _ = _ :=
      nameCompareAscii_dir hdir (text name) 0 name.length
    exact heq ▸ hplain
  · obtain ⟨c, hc, h0⟩ := hfile.differs (text name) 0 name.length
    exact ⟨c, hc, fun h => absurd h h0⟩

theorem compare_self (hj : v.joliet = false) (d : v.Dir) (name : List UInt8) :
    v.compare (v.base d) name = nameCompareAscii (fun _ => 0) 0 (text name) 0 name.length := by
  rw [compare, compareAt, nameCompare, if_neg (eq_false_iff.1 hj)]
  rw [show v.mmDev (v.base d + 32) = 1 from (v.dir d).self_len]
  refine nameCompareAscii_self ?_ (text name) 0 name.length
  rw [show v.mmDev (v.base d + 33 + 0) = 0 from (v.dir d).self_name]
  decide

theorem compare_ok (hid : .record ofs ∈ (v.dir d).stops) :
    ∃ c, v.compare (v.base d + ofs) name = .ok c := by
  cases hj : v.joliet with
  | true =>
    obtain ⟨c, hc, -⟩ := compare_joliet name hj hid
    exact ⟨c, hc⟩
  | false =>
    obtain ⟨c, hc, -⟩ := compare_iso name hj hid
    exact ⟨c, hc⟩

/-- What the scan finds where it reads no padding. -/
def found (v : Volume) (d : v.Dir) (name : List UInt8) : Option Nat :=
  v.firstEqual (v.base d) name (v.dir d).stops

theorem scan_of_quiet (h : v.Quiet d name) : v.scan d name = .ok (v.found d name) := by
  rw [scan_eq]
  exact scanStops_of_quiet (fun ofs => compare_ok) h

theorem scan_ok_iff {x : Option Nat}
    (hx : ∀ o, .padding o ∈ (v.dir d).stops → x ≠ some (v.base d + o)) :
    v.scan d name = .ok x ↔ v.Quiet d name ∧ v.found d name = x := by
  constructor
  · intro h
    have hquiet : v.Quiet d name := by
      rw [scan_eq] at h
      exact quiet_of_scanStops (fun ofs => compare_ok) h hx
    rw [scan_of_quiet hquiet] at h
    exact ⟨hquiet, ok.inj h⟩
  · rintro ⟨hquiet, rfl⟩
    exact scan_of_quiet hquiet

theorem scan_iff : v.scan d name = .ok (v.found d name) ↔ v.Quiet d name := by
  refine (scan_ok_iff fun o ho heq => ?_).trans (and_iff_left rfl)
  obtain ⟨o', hrec, hsum⟩ := firstEqual_mem heq
  obtain rfl : o = o' := add_left_cancel hsum
  exact padding_not_record (v.dir d).layout ho hrec

theorem scan_none_iff : v.scan d name = .ok none ↔ v.Quiet d name ∧ v.found d name = none :=
  scan_ok_iff fun _ _ => nofun

theorem scan_mem (h : v.scan d name = .ok (some x)) :
    v.base d ≤ x ∧ x < v.base d + (v.dir d).len := by
  rw [scan_eq] at h
  obtain ⟨s, hs, rfl⟩ := scanStops_mem h
  have := (inOrder (v.dir d).layout).le s hs
  omega

theorem found_joliet (hj : v.joliet = true) (d : v.Dir) (name : List UInt8) :
    v.found d name = v.entry d name := by
  rw [found, firstEqual]
  congr 1
  apply find?_congr
  intro ofs hofs
  obtain ⟨c, hc, hiff⟩ := compare_joliet name hj (mem_records.mp hofs)
  rw [decide_eq_decide, hc, ← hiff]
  exact ⟨ok.inj, fun h => by rw [h]⟩

theorem found_iso (hj : v.joliet = false) (d : v.Dir) (name : List UInt8) :
    v.found d name = if Blank name then some (v.base d) else none := by
  by_cases hblank : Blank name
  · rw [if_pos hblank, found, firstEqual]
    cases hstops : (v.dir d).stops with
    | nil =>
      have := (v.dir d).self
      rw [hstops] at this
      cases this
    | cons s rest =>
      have hself := (v.dir d).self
      rw [hstops, head?_cons, some.injEq] at hself
      subst hself
      have hcmp : v.compare (v.base d + 0) name = .ok 0 := by
        rw [add_zero, compare_self hj d name]
        exact hblank
      rw [records, find?_cons_of_pos (by simpa using hcmp), map_some, add_zero]
  · rw [if_neg hblank, found, firstEqual, map_eq_none_iff, find?_eq_none]
    intro ofs hofs heq
    obtain ⟨c, hc, h0⟩ := compare_iso name hj (mem_records.mp hofs)
    rw [decide_eq_true_eq, hc] at heq
    exact hblank (h0 (ok.inj heq))

end Records

/-! ## The search of the path table -/

/-- A component searched for in the path table, below the directory with this number. -/
def search (v : Volume) (parent : Nat) (piece : List UInt8) : Except Err (Option Nat) :=
  v.searchTable (text piece) ⟨0, piece.length, parent⟩

theorem pt_eq {i : Nat} (hi : i < v.ptPtrs.length) : v.pt i = v.ptPtrs[i] :=
  getD_eq_getElem _ _ hi

theorem pt_root (v : Volume) :
    (v.pt 0).parentDn = 1 ∧ (v.pt 0).diLen = 1 ∧ (v.pt 0).name 0 = 0 := by
  obtain ⟨rec, rest, h, hrec⟩ := v.root_rec
  rw [pt, h]
  exact hrec

theorem less_of_lt {i j : Nat} (hij : i < j) (hj : j < v.ptPtrs.length) :
    (v.pt i).Less v.joliet (v.pt j) := by
  rw [pt_eq (hij.trans hj), pt_eq hj]
  exact pairwise_iff_getElem.mp v.sorted i j (hij.trans hj) hj hij

/-- The comparison with one entry of the path table of a Joliet volume. -/
def recCmp (v : Volume) (parent : Nat) (piece : List UInt8) (i : Nat) : Int :=
  if (v.pt i).parentDn ≠ parent then diff32 parent (v.pt i).parentDn
  else compareChars (pieceChars piece) ((v.pt i).chars v.joliet)

section Search

variable {d : v.Dir} {piece : List UInt8} {i t : Nat} (hj : v.joliet = true)
  (hi : i < v.ptPtrs.length)
include hi

theorem parent_lt : (v.pt i).parentDn < 2 ^ 16 := by
  have := v.count_lt
  by_cases h0 : i = 0
  · rw [h0, (pt_root v).1]
    decide
  · have := v.parent_le i (Nat.pos_of_ne_zero h0) hi
    omega

theorem pt_mem_tail (h0 : i ≠ 0) : v.pt i ∈ v.ptPtrs.tail := by
  rw [pt_eq hi, mem_iff_getElem]
  refine ⟨i - 1, by rw [length_tail]; omega, ?_⟩
  rw [getElem_tail]
  congr 1
  omega

theorem diff32_parent (d : v.Dir) :
    diff32 (d + 1) (v.pt i).parentDn = (d : Int) + 1 - (v.pt i).parentDn := by
  have := v.count_lt
  have := parent_lt hi
  rw [diff32_of_lt (by omega) (by omega)]
  rfl

include hj

theorem rec_jolietId : JolietId (v.pt i).name (v.pt i).diLen := by
  by_cases h0 : i = 0
  · intro u hu
    rw [h0, (pt_root v).2.1] at hu
    cases hu
  · have := v.rec_ids _ (pt_mem_tail hi h0)
    rwa [if_pos hj] at this

theorem lookupPathCmp_joliet (parent : Nat) (piece : List UInt8) :
    v.lookupPathCmp (v.pt i) (text piece) ⟨0, piece.length, parent⟩ =
      .ok (v.recCmp parent piece i) := by
  rw [lookupPathCmp, if_pos hj, lookupPathCmpUtf16be, recCmp]
  split
  · rfl
  · rw [chars, idChars, if_pos hj]
    exact nameCompareUtf16be_text (rec_jolietId hj hi) piece

theorem rec_words : Words ((v.pt i).chars v.joliet) := by
  rw [chars, idChars, if_pos hj]
  exact (rec_jolietId hj hi).words

theorem recCmp_eq_zero_iff : v.recCmp (d + 1) piece i = 0 ↔
      (v.pt i).parentDn = d + 1 ∧ names v.joliet ((v.pt i).chars v.joliet) piece := by
  rw [recCmp]
  by_cases hpar : (v.pt i).parentDn = d + 1
  · rw [if_neg (not_not.mpr hpar), and_iff_right hpar, names, if_pos hj]
    exact compareChars_eq_zero_iff (decoded_points _ _ _ _) (rec_words hj hi)
  · rw [diff32_parent hi d]
    exact iff_of_false (by omega) fun h => hpar h.1

/-- The table's order is the comparator's. -/
theorem recCmp_sign (ht : t < v.ptPtrs.length) (hpar : (v.pt t).parentDn = d + 1)
    (hname : names v.joliet ((v.pt t).chars v.joliet) piece) :
    ((v.pt i).Less v.joliet (v.pt t) → 0 < v.recCmp (d + 1) piece i) ∧
      ((v.pt t).Less v.joliet (v.pt i) → v.recCmp (d + 1) piece i < 0) := by
  rw [names, if_pos hj] at hname
  have hsign := compareChars_sign (rec_words hj ht) (rec_words hj hi) hname
  rw [Less, Less, hpar, recCmp]
  by_cases heq : (v.pt i).parentDn = d + 1
  · rw [if_neg (not_not.mpr heq), heq]
    constructor
    · intro h
      exact hsign.1 (h.resolve_left (lt_irrefl _)).2
    · intro h
      exact hsign.2 (h.resolve_left (lt_irrefl _)).2
  · rw [diff32_parent hi d]
    constructor
    · omega
    · omega

omit hi in
theorem search_joliet (d : v.Dir) (piece : List UInt8) :
    v.search (d + 1) piece = .ok ((v.child d piece).map Fin.val) := by
  have hcmp := fun i (hi : i < v.ptPtrs.length) => lookupPathCmp_joliet hj hi (d + 1) piece
  rw [search, searchTable]
  cases hchild : v.child d piece with
  | some t =>
    have ht := find?_some hchild
    rw [decide_eq_true_eq] at ht
    have hsign := fun i (hi : i < v.ptPtrs.length) => recCmp_sign hj hi t.isLt ht.1 ht.2
    have hhit := binarySearch_hit (fun i hi => ⟨_, hcmp i (hi.trans t.isLt),
        (hsign i (hi.trans t.isLt)).1 (less_of_lt hi t.isLt)⟩)
      ((hcmp t t.isLt).trans (congrArg _ ((recCmp_eq_zero_iff hj t.isLt).mpr ht)))
      (fun i hti hi => ⟨_, hcmp i hi, (hsign i hi).2 (less_of_lt hti hi)⟩) t.isLt
    rw [ok_bind hhit]
    rfl
  | none =>
    obtain ⟨r, hr⟩ := binarySearch_total true fun i hi => ⟨_, hcmp i hi⟩
    rw [ok_bind hr, if_pos]
    · rfl
    · by_contra hneg
      obtain ⟨hlt, hzero⟩ := binarySearch_found hr (by omega)
      rw [hcmp _ hlt] at hzero
      have hmatch := (recCmp_eq_zero_iff hj hlt).mp (ok.inj hzero)
      have hno := find?_eq_none.mp hchild ⟨r.toNat, hlt⟩ (mem_finRange _)
      exact hno (decide_eq_true hmatch)

end Search

end Volume

end Dgos.L3.Iso9660
