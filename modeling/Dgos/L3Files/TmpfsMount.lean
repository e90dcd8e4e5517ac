import Dgos.L3Files.Tmpfs

/-!
# Mounting a cpio image

Results:
* `Fields.of_entry`: what the header accessors read where an entry of an archive lies.
* `mountLoop_plain`: the loop of `mount` indexes the files of an archive, if no file but the
  last has `2 ^ 32 - 1` bytes. The padded size of such a file is `2 ^ 32`, which the code
  computes as 0: it takes the data of the file for the next header.
* `mount_open_read_iff`: mounting, opening and reading are right exactly for these archives
  and for requests of less than `2 ^ 63` bytes.
-/
namespace Dgos.L3.Tmpfs

open List Nat File Index

/-! ## Reading an entry -/

variable {m : Meta} {hash32 : List UInt8 → UInt32} {img pre dt suf path : List UInt8} {f : File}
  {fs : List File}

theorem header_lt {ns fs : Nat} (hns : ns < 2 ^ 16) (hfs : fs < 2 ^ 32) :
    ∀ w ∈ header m ns fs, w < 2 ^ 16 := by
  have h16 : ∀ x : UInt16, x.toNat < 2 ^ 16 := UInt16.toNat_lt
  have hmtime : m.mtime.toNat < 2 ^ 32 := UInt32.toNat_lt _
  simp only [header, mem_cons, not_mem_nil, or_false]
  rintro w (rfl | rfl | rfl | rfl | rfl | rfl | rfl | rfl | rfl | rfl | rfl | rfl | rfl)
  all_goals first | exact h16 _ | omega

theorem halves (n : Nat) : (n / 2 ^ 16) <<< 16 ||| n % 2 ^ 16 = n := by
  rw [← shiftLeft_add_eq_or_of_lt (mod_lt _ (by decide))]
  omega

@[simp] theorem length_pad (l : List UInt8) : (pad l).length = l.length + l.length % 2 := by
  simp [pad]

@[simp] theorem length_header (m : Meta) (ns fs : Nat) : (header m ns fs).length = 13 := rfl

theorem length_entry (m : Meta) (nm dt : List UInt8) :
    (entry m nm dt).length = hdrSize + (pad (nm ++ [0])).length + (pad dt).length := by
  simp only [entry, length_append, length_words, length_header, hdrSize]
  omega

/-- What is read where an entry lies. -/
structure Fields (img : List UInt8) (hdr : Nat) (m : Meta) (nm dt : List UInt8) : Prop where
  magic : magic img hdr = 0x71c7
  ino : ino img hdr = m.ino.toNat
  mode : mode img hdr = m.mode.toNat
  nlink : nlink img hdr = m.nlink.toNat
  mtime : mtime img hdr = m.mtime.toNat
  namesize : namesize img hdr = nm.length + 1
  filesize : filesize img hdr = dt.length
  name : slice img (hdr + hdrSize) (nm.length + 1) = nm ++ [0]
  data : data img hdr = hdr + hdrSize + (pad (nm ++ [0])).length
  length : hdr + (entry m nm dt).length ≤ img.length

theorem Fields.of_entry {nm dt : List UInt8} (hnm : nm.length + 1 < 2 ^ 16)
    (hdt : dt.length < 2 ^ 32) (pre suf : List UInt8) :
    Fields (pre ++ (entry m nm dt ++ suf)) pre.length m nm dt := by
  have hword : ∀ k (hk : k < 13), readU16 (pre ++ (entry m nm dt ++ suf)) (pre.length + 2 * k) =
      (header m (nm.length + 1) dt.length).get ⟨k, hk⟩ := by
    intro k hk
    exact readU16_words (header_lt hnm hdt) pre _ hk
  have hns : Tmpfs.namesize (pre ++ (entry m nm dt ++ suf)) pre.length = nm.length + 1 :=
    hword 10 (by decide)
  refine ⟨hword 0 (by decide), hword 2 (by decide), hword 3 (by decide), hword 6 (by decide),
    ?_, hns, ?_, ?_, ?_, ?_⟩
  · rw [Tmpfs.mtime, hword 8 (by decide), hword 9 (by decide)]
    exact halves _
  · rw [Tmpfs.filesize, hword 11 (by decide), hword 12 (by decide)]
    exact halves _
  · have hpre : pre.length + hdrSize = (pre ++ words (header m (nm.length + 1) dt.length)).length := by
      simp [hdrSize]
    have himg : pre ++ (entry m nm dt ++ suf) =
        (pre ++ words (header m (nm.length + 1) dt.length)) ++ ((nm ++ [0]) ++
          (replicate ((nm ++ [0]).length % 2) 0 ++ (pad dt ++ suf))) := by
      simp [entry, pad]
    rw [hpre, himg, show nm.length + 1 = (nm ++ [0]).length by simp]
    exact slice_mid _ _ _
  · rw [Tmpfs.data, and_one_is_mod, length_pad, length_append, length_singleton]
    omega
  · simp only [length_append]
    omega

/-! ## One turn of the loop -/

section Step

variable {hdr : Nat}

/-- The index after a file. -/
def Index.push (hash32 : List UInt8 → UInt32) (ix : Index) (f : File) (hdr : Nat) : Index where
  names := ix.names ++ (f.name ++ [0])
  files := ix.files ++ [f.record hash32 hdr ix.names.length]

section

variable (h : Fields img hdr f.info f.name f.data)
include h

theorem fileAt_eq (ix : Index) :
    fileAt hash32 img hdr ix = f.record hash32 hdr ix.names.length := by
  have hname : slice img (name hdr) f.name.length = f.name := by
    have := congrArg (take f.name.length) h.name
    rwa [slice, take_take, Nat.min_eq_left (Nat.le_succ _), take_left] at this
  simp [fileAt, record, h.data, h.namesize, h.filesize, h.ino, h.mode, h.mtime, h.nlink, hname]

theorem isTrailer_eq_false : isTrailer img hdr = false := by
  rw [isTrailer, decide_eq_false_iff_not, h.namesize]
  rintro ⟨hlen, hname⟩
  rw [show 11 = f.name.length + 1 by omega, name, h.name] at hname
  exact f.name_ne (append_cancel_right hname)

theorem add_file (ix : Index) :
    add hash32 img hdr ix = .ok (next img hdr, ix.push hash32 f hdr) := by
  have hlen := h.length
  rw [length_entry] at hlen
  rw [add, if_neg (not_not_intro h.magic), if_neg, isTrailer_eq_false h, if_neg Bool.false_ne_true,
    fileAt_eq h, h.namesize, name, h.name, push]
  rw [h.namesize, name]
  simp only [length_pad, length_append, length_singleton] at hlen
  omega

/-- The next header is taken to be behind the data, counted in 32 bits. -/
theorem next_file
    (hroom : data img hdr + (f.data.length + f.data.length % 2) % 2 ^ 32 + hdrSize ≤ img.length) :
    next img hdr = some (data img hdr + (f.data.length + f.data.length % 2) % 2 ^ 32) := by
  have hnot : ¬ (namesize img hdr = 11 ∧ slice img (name hdr) 10 = trailerName ∧
      filesize img hdr = 0) := by
    rintro ⟨hlen, hname, -⟩
    rw [h.namesize] at hlen
    have := congrArg (take 10) h.name
    rw [slice, take_take, Nat.min_eq_left (by omega), ← slice, ← name, hname,
      take_left' (by omega)] at this
    exact f.name_ne this.symm
  rw [next, if_neg hnot, h.filesize, and_one_is_mod]
  rw [if_neg (Nat.not_lt.mpr hroom)]

theorem mountLoop_file (ix : Index) (fuel : Nat)
    (hroom : data img hdr + (f.data.length + f.data.length % 2) % 2 ^ 32 + hdrSize ≤ img.length) :
    mountLoop hash32 img (fuel + 1) hdr ix =
      mountLoop hash32 img fuel (data img hdr + (f.data.length + f.data.length % 2) % 2 ^ 32)
        (ix.push hash32 f hdr) := by
  have hlen := h.length
  rw [length_entry, length_pad, length_append, length_singleton] at hlen
  rw [mountLoop, if_pos (by omega), ok_bind (add_file h ix), next_file h hroom]

end

theorem mountLoop_stop {ix : Index} (hadd : add hash32 img hdr ix = .ok (none, ix)) (fuel : Nat) :
    mountLoop hash32 img (fuel + 1) hdr ix = .ok ix := by
  rw [mountLoop]
  split
  · rw [ok_bind hadd]
    rfl
  · rfl

theorem add_trailer (h : Fields img hdr m trailerName []) (ix : Index) :
    add hash32 img hdr ix = .ok (none, ix) := by
  have hlen := h.length
  rw [length_entry] at hlen
  have htrailer : isTrailer img hdr = true := by
    rw [isTrailer, decide_eq_true_iff, h.namesize]
    exact ⟨rfl, h.name⟩
  rw [add, if_neg (not_not_intro h.magic), if_neg, if_pos htrailer]
  rw [h.namesize, name]
  simp only [length_pad, length_append, length_singleton] at hlen
  omega

theorem mountLoop_prefix : ∀ (fuel : Nat) {hdr : Nat} {ix ix' : Index},
    mountLoop hash32 img fuel hdr ix = .ok ix' → ix.files <+: ix'.files
  | 0, _, _, _, h => by cases h
  | fuel + 1, hdr, ix, ix', h => by
    rw [mountLoop] at h
    split at h
    · obtain ⟨r, hadd, hrest⟩ := bind_eq_ok h
      have hfiles : ix.files <+: r.2.files := by
        rw [add] at hadd
        split at hadd
        · cases hadd
          exact prefix_rfl
        split at hadd
        · cases hadd
        · split at hadd
          · cases hadd
            exact prefix_rfl
          · cases hadd
            exact prefix_append ..
      refine hfiles.trans ?_
      split at hrest
      · cases hrest
        exact prefix_rfl
      · split at hrest
        · cases hrest
          exact prefix_rfl
        · exact mountLoop_prefix fuel hrest
    · cases h
      exact prefix_rfl

end Step

/-! ## A file of `2 ^ 32 - 1` bytes -/

/-- The bytes start with a header that `add` takes for a file. -/
def Accepts (l : List UInt8) : Prop := magic l 0 = 0x71c7 ∧ isTrailer l 0 = false

/-- No file but the last has `2 ^ 32 - 1` bytes, and if the last has, it does not start with the
header of a file. -/
def Plain : List File → Prop
  | [] => True
  | [f] => f.data.length = 2 ^ 32 - 1 → ¬ Accepts f.data
  | f :: g :: fs => f.data.length ≠ 2 ^ 32 - 1 ∧ Plain (g :: fs)

theorem header_within (pre suf : List UInt8) (hdt : 2 ^ 20 ≤ dt.length) :
    magic (pre ++ (dt ++ suf)) pre.length = magic dt 0 ∧
      isTrailer (pre ++ (dt ++ suf)) pre.length = isTrailer dt 0 := by
  have hword : ∀ k < 13, readU16 (pre ++ (dt ++ suf)) (pre.length + 2 * k) =
      readU16 dt (0 + 2 * k) := by
    intro k hk
    rw [readU16_append, readU16_append_left (by omega), Nat.zero_add]
  have hname : slice (pre ++ (dt ++ suf)) (name pre.length) 11 = slice dt (name 0) 11 := by
    exact slice_take_drop _ _ _ (by rw [hdrSize]; omega)
  refine ⟨hword 0 (by decide), ?_⟩
  rw [isTrailer, isTrailer, hname, namesize, namesize, hword 10 (by decide)]

theorem add_refused (hdt : 2 ^ 20 ≤ dt.length) (hacc : ¬ Accepts dt) (ix : Index) :
    add hash32 (pre ++ (dt ++ suf)) pre.length ix = .ok (none, ix) := by
  obtain ⟨hmagic, htrailer⟩ := header_within pre suf hdt
  by_cases hm : magic (pre ++ (dt ++ suf)) pre.length = 0x71c7
  · have ht : isTrailer (pre ++ (dt ++ suf)) pre.length = true := by
      rw [htrailer, ← Bool.not_eq_false]
      exact fun h => hacc ⟨hmagic ▸ hm, h⟩
    have hns : namesize (pre ++ (dt ++ suf)) pre.length = 11 := by
      rw [isTrailer, decide_eq_true_iff] at ht
      exact ht.1
    have hroom : ¬ (pre ++ (dt ++ suf)).length <
        name pre.length + namesize (pre ++ (dt ++ suf)) pre.length := by
      rw [name, hdrSize]
      simp only [length_append]
      omega
    rw [add, if_neg (not_not_intro hm), if_neg hroom, if_pos ht]
  · rw [add, if_pos hm]

/-- If the data is taken for a header, one more record appears, of data close behind it. -/
theorem mountLoop_accepted (hdt : 2 ^ 20 ≤ dt.length) (hacc : Accepts dt) {fuel : Nat}
    {ix ix' : Index}
    (h : mountLoop hash32 (pre ++ (dt ++ suf)) (fuel + 1) pre.length ix = .ok ix') :
    ∃ r, ix.files ++ [r] <+: ix'.files ∧ r.fileOfs < pre.length + 2 ^ 20 := by
  obtain ⟨hmagic, htrailer⟩ := header_within pre suf hdt
  rw [hacc.1] at hmagic
  rw [hacc.2] at htrailer
  have hns := readU16_lt (pre ++ (dt ++ suf)) (pre.length + 2 * 10)
  have hlt : pre.length + hdrSize < (pre ++ (dt ++ suf)).length := by
    rw [hdrSize]
    simp only [length_append]
    omega
  have hadd : ∀ r, add hash32 (pre ++ (dt ++ suf)) pre.length ix = .ok r →
      r.2.files = ix.files ++ [fileAt hash32 (pre ++ (dt ++ suf)) pre.length ix] := by
    intro r hr
    rw [add, if_neg (not_not_intro hmagic)] at hr
    split at hr
    · cases hr
    · rw [htrailer] at hr
      cases hr
      rfl
  refine ⟨fileAt hash32 (pre ++ (dt ++ suf)) pre.length ix, ?_, ?_⟩
  · rw [mountLoop, if_pos hlt] at h
    obtain ⟨r, hr, hrest⟩ := bind_eq_ok h
    rw [← hadd r hr]
    split at hrest
    · cases hrest
      exact prefix_rfl
    · split at hrest
      · cases hrest
        exact prefix_rfl
      · exact mountLoop_prefix fuel hrest
  · simp only [fileAt, data, hdrSize, and_one_is_mod]
    rw [← namesize] at hns
    omega

/-! ## The loop -/

section Loop

variable (hash32) (tr : Meta) (tail : List UInt8)

/-- The image from some file on. -/
def imageFrom (fs : List File) : List UInt8 :=
  fs.flatMap File.entry ++ (entry tr trailerName [] ++ tail)

theorem imageFrom_cons (f : File) (fs : List File) :
    imageFrom tr tail (f :: fs) = f.entry ++ imageFrom tr tail fs := by
  simp [imageFrom]

theorem le_length_imageFrom (fs : List File) : hdrSize + 12 ≤ (imageFrom tr tail fs).length := by
  simp only [imageFrom, length_append, length_entry, length_pad, trailerName,
    length_cons, length_nil]
  omega

theorem fields_cons (f : File) (fs : List File) (pre : List UInt8) :
    Fields (pre ++ imageFrom tr tail (f :: fs)) pre.length f.info f.name f.data := by
  rw [imageFrom_cons]
  exact Fields.of_entry f.name_lt f.data_lt _ _

theorem fields_nil (pre : List UInt8) :
    Fields (pre ++ imageFrom tr tail []) pre.length tr trailerName [] :=
  Fields.of_entry (by decide) (by decide) _ _

theorem padded_eq (hne : f.data.length ≠ 2 ^ 32 - 1) :
    (f.data.length + f.data.length % 2) % 2 ^ 32 = (pad f.data).length := by
  have := f.data_lt
  rw [length_pad]
  omega

/-- A file that is not too large: the loop goes on behind it. -/
theorem mountLoop_cons (hne : f.data.length ≠ 2 ^ 32 - 1) (pre : List UInt8) (ix : Index)
    (fuel : Nat) : mountLoop hash32 (pre ++ imageFrom tr tail (f :: fs)) (fuel + 1) pre.length ix =
      mountLoop hash32 ((pre ++ f.entry) ++ imageFrom tr tail fs) fuel (pre ++ f.entry).length
        (ix.push hash32 f pre.length) := by
  have h := fields_cons tr tail f fs pre
  have hpos : data (pre ++ imageFrom tr tail (f :: fs)) pre.length +
      (f.data.length + f.data.length % 2) % 2 ^ 32 = (pre ++ f.entry).length := by
    rw [h.data, padded_eq hne, length_append, File.entry, length_entry]
    omega
  have hlen := le_length_imageFrom tr tail fs
  rw [mountLoop_file h ix fuel, hpos]
  · rw [imageFrom_cons, append_assoc]
  · have himg : (pre ++ imageFrom tr tail (f :: fs)).length =
        (pre ++ f.entry).length + (imageFrom tr tail fs).length := by
      rw [imageFrom_cons, ← append_assoc, length_append]
    omega

theorem imageFrom_data (f : File) (fs : List File) (pre : List UInt8) : ∃ pre' suf,
    pre ++ imageFrom tr tail (f :: fs) = pre' ++ (f.data ++ suf) ∧
      data (pre ++ imageFrom tr tail (f :: fs)) pre.length = pre'.length := by
  refine ⟨pre ++ (words (header f.info (f.name.length + 1) f.data.length) ++ pad (f.name ++ [0])),
    replicate (f.data.length % 2) 0 ++ imageFrom tr tail fs, ?_, ?_⟩
  · simp [imageFrom_cons, File.entry, entry, pad]
  · rw [(fields_cons tr tail f fs pre).data]
    simp only [length_append, length_words, length_header, hdrSize]
    omega

/-- A file of `2 ^ 32 - 1` bytes: the loop goes on in its data. -/
theorem mountLoop_cons_wrapped (heq : f.data.length = 2 ^ 32 - 1) (fs : List File)
    (pre : List UInt8) (ix : Index) (fuel : Nat) : ∃ pre' suf,
    mountLoop hash32 (pre ++ imageFrom tr tail (f :: fs)) (fuel + 1) pre.length ix =
      mountLoop hash32 (pre' ++ (f.data ++ suf)) fuel pre'.length (ix.push hash32 f pre.length) ∧
      pre'.length = pre.length + hdrSize + (pad (f.name ++ [0])).length := by
  have h := fields_cons tr tail f fs pre
  obtain ⟨pre', suf, himg, hdata⟩ := imageFrom_data tr tail f fs pre
  have hzero : (f.data.length + f.data.length % 2) % 2 ^ 32 = 0 := by omega
  refine ⟨pre', suf, ?_, by rw [← hdata, h.data]⟩
  rw [mountLoop_file h ix fuel, hzero, Nat.add_zero, hdata, himg]
  rw [hdata, himg, hdrSize]
  simp only [length_append]
  omega

theorem mountLoop_plain : ∀ (fs : List File) (pre : List UInt8) (ix : Index) (fuel : Nat),
    Plain fs → fs.length < fuel →
    mountLoop hash32 (pre ++ imageFrom tr tail fs) fuel pre.length ix =
      .ok ⟨ix.names ++ fs.flatMap (fun f => f.name ++ [0]),
        ix.files ++ records hash32 fs pre.length ix.names.length⟩
  | [], pre, ix, fuel + 1, _, _ => by
    rw [mountLoop_stop (add_trailer (fields_nil tr tail pre) ix)]
    simp [records]
  | f :: fs, pre, ix, fuel + 1, hplain, hfuel => by
    by_cases heq : f.data.length = 2 ^ 32 - 1
    · cases fs with
      | cons g gs => exact absurd heq hplain.1
      | nil =>
        obtain ⟨fuel, rfl⟩ : ∃ n, fuel = n + 1 :=
          Nat.exists_eq_succ_of_ne_zero (by simp only [length_singleton] at hfuel; omega)
        obtain ⟨pre', suf, hloop, -⟩ :=
          mountLoop_cons_wrapped hash32 tr tail heq [] pre ix (fuel + 1)
        rw [hloop, mountLoop_stop (add_refused (by omega) (hplain heq) _)]
        simp [push, records]
    · have hrest : Plain fs := by
        cases fs with
        | nil => trivial
        | cons g gs => exact hplain.2
      rw [mountLoop_cons hash32 tr tail heq, mountLoop_plain fs _ _ fuel hrest
        (lt_of_succ_lt_succ hfuel)]
      simp [push, records]

/-- Conversely, an archive whose files are indexed as they should be has no such file. -/
theorem plain_of_files : ∀ (fs : List File) (pre : List UInt8) (ix ix' : Index) (fuel : Nat),
    mountLoop hash32 (pre ++ imageFrom tr tail fs) fuel pre.length ix = .ok ix' →
    ix'.files = ix.files ++ records hash32 fs pre.length ix.names.length → Plain fs
  | [], _, _, _, _, _, _ => trivial
  | f :: fs, pre, ix, ix', 0, h, _ => by cases h
  | f :: fs, pre, ix, ix', fuel + 1, h, hfiles => by
    by_cases heq : f.data.length = 2 ^ 32 - 1
    · obtain ⟨pre', suf, hloop, hpre'⟩ := mountLoop_cons_wrapped hash32 tr tail heq fs pre ix fuel
      rw [hloop] at h
      obtain ⟨fuel, rfl⟩ : ∃ n, fuel = n + 1 := by
        cases fuel with
        | zero => cases h
        | succ n => exact ⟨n, rfl⟩
      have hbig : 2 ^ 20 ≤ f.data.length := by omega
      by_cases hacc : Accepts f.data
      · -- one record too many, or the record of something inside the file
        obtain ⟨r, hr, hofs⟩ := mountLoop_accepted hbig hacc h
        rw [hfiles, push, append_assoc, prefix_append_right_inj] at hr
        cases fs with
        | nil => simp [records] at hr
        | cons g gs =>
          obtain ⟨-, rfl, -⟩ := hr
          simp only [record, File.entry, length_entry, length_pad] at hofs hpre'
          omega
      · rw [mountLoop_stop (add_refused hbig hacc _)] at h
        cases h
        cases fs with
        | nil => exact fun _ => hacc
        | cons g gs => simp [push, records] at hfiles
    · rw [mountLoop_cons hash32 tr tail heq] at h
      have hrest := plain_of_files fs _ _ _ fuel h (by
        rw [hfiles]
        simp [push, records])
      cases fs with
      | nil => exact fun h' => absurd h' heq
      | cons g gs => exact ⟨heq, hrest⟩

/-! ## Opening -/

variable {hash32}

def allNames (fs : List File) : List UInt8 := fs.flatMap fun f => f.name ++ [0]

theorem record_matches {ofs : Nat} : (f.record hash32 ofs pre.length).nameHash = hash32 path ∧
      (f.record hash32 ofs pre.length).nameSz = path.length + 1 ∧
      slice (pre ++ (f.name ++ suf)) (f.record hash32 ofs pre.length).nameOfs path.length = path ↔
    f.name = path := by
  constructor
  · rintro ⟨-, hlen, hname⟩
    simp only [record, Nat.add_right_cancel_iff] at hlen hname
    rw [← hlen, slice_mid] at hname
    exact hname
  · rintro rfl
    exact ⟨rfl, rfl, slice_mid ..⟩

theorem openLoop_records (hash32 : List UInt8 → UInt32) (path : List UInt8) :
    ∀ (fs : List File) (pre suf : List UInt8) (ofs index : Nat),
    openLoop hash32 (pre ++ (allNames fs ++ suf)) path (records hash32 fs ofs pre.length) index =
      match fs.findIdx? (fun f => f.name = path) with
      | some i => .ok (index + i)
      | none => .error .ENOENT
  | [], _, _, _, _ => rfl
  | f :: fs, pre, suf, ofs, index => by
    have hnames : pre ++ (allNames (f :: fs) ++ suf) =
        pre ++ (f.name ++ ([0] ++ (allNames fs ++ suf))) := by
      simp [allNames]
    have hnames' : pre ++ (allNames (f :: fs) ++ suf) =
        (pre ++ (f.name ++ [0])) ++ (allNames fs ++ suf) := by
      simp [allNames]
    have hlen : pre.length + (f.name.length + 1) = (pre ++ (f.name ++ [0])).length := by simp
    rw [records, openLoop, findIdx?_cons]
    by_cases hpath : f.name = path
    · rw [if_pos (by rw [hnames]; exact record_matches.mpr hpath)]
      simp [hpath]
    rw [if_neg (by rw [hnames]; exact fun h => hpath (record_matches.mp h)), hnames', hlen,
      openLoop_records hash32 path fs _ suf _ (index + 1)]
    simp only [hpath, decide_false, Bool.false_eq_true, if_false]
    cases fs.findIdx? fun f => f.name = path with
    | none => rfl
    | some i =>
      simp only [Option.map_some]
      rw [Nat.add_assoc, Nat.add_comm 1 i]

theorem openat_records (fs : List File) (path : List UInt8) {flags : Nat}
    (hflags : flags &&& writeFlags = 0) :
    openat hash32 ⟨[0] ++ allNames fs, records hash32 fs 0 1⟩ path flags =
      match fs.findIdx? (fun f => f.name = path) with
      | some i => .ok i
      | none => .error .ENOENT := by
  have := openLoop_records hash32 path fs [0] [] 0 0
  rw [append_nil, length_singleton] at this
  rw [openat, if_neg (not_not_intro hflags), this]
  simp

theorem findIdx_name (hd : (fs.map File.name).Nodup) {i : Nat} (hi : i < fs.length) :
    fs.findIdx? (fun f => f.name = fs[i].name) = some i := by
  rw [findIdx?_eq_some_iff_getElem]
  refine ⟨hi, by simp, fun j hj => ?_⟩
  have hne := pairwise_iff_getElem.mp hd j i (by simp; omega) (by simpa using hi) hj
  simpa using hne

theorem findIdx_none (hpath : path ∉ fs.map File.name) :
    fs.findIdx? (fun f => f.name = path) = none := by
  rw [findIdx?_eq_none_iff]
  intro f hf
  simp only [decide_eq_false_iff_not]
  rintro rfl
  exact hpath (mem_map_of_mem hf)

/-! ## Reading -/

variable {r : FileT} {size : Nat}

theorem length_records : ∀ (fs : List File) (ofs nameOfs : Nat),
    (records hash32 fs ofs nameOfs).length = fs.length
  | [], _, _ => rfl
  | _ :: fs, _, _ => congrArg (· + 1) (length_records fs _ _)

theorem records_get : ∀ (fs : List File) (pre : List UInt8) (nameOfs : Nat) {i : Nat}
    (hi : i < fs.length) {r : FileT}, (records hash32 fs pre.length nameOfs)[i]? = some r →
    r.fileSz = fs[i].data.length ∧ ∃ pre' suf,
      pre ++ imageFrom tr tail fs = pre' ++ (fs[i].data ++ suf) ∧ r.fileOfs = pre'.length
  | f :: fs, pre, nameOfs, 0, _, r, hr => by
    obtain ⟨pre', suf, himg, hdata⟩ := imageFrom_data tr tail f fs pre
    simp only [records, getElem?_cons_zero, Option.some.injEq] at hr
    subst hr
    refine ⟨rfl, pre', suf, himg, ?_⟩
    rw [← hdata, (fields_cons tr tail f fs pre).data]
    rfl
  | f :: fs, pre, nameOfs, i + 1, hi, r, hr => by
    rw [records, ← length_append] at hr
    obtain ⟨hsz, pre', suf, himg, hofs⟩ :=
      records_get fs (pre ++ f.entry) _ (lt_of_succ_lt_succ hi) hr
    refine ⟨hsz, pre', suf, ?_, hofs⟩
    rw [imageFrom_cons, ← append_assoc]
    exact himg

theorem read_small (hsz : r.fileSz = dt.length) (hofs : r.fileOfs = pre.length)
    (hsize : size < 2 ^ 63) (offset : Nat) :
    read (pre ++ (dt ++ suf)) r size offset = .ok (slice dt offset size) := by
  rw [read, hsz, hofs]
  split
  · rw [slice_of_length_le (by omega)]
  have hclip : (if (dt.length : Int) - offset < offT size then ((dt.length : Int) - offset).toNat
      else size) = min (dt.length - offset) size := by
    rw [offT, if_pos hsize]
    split <;> omega
  have hpos : ¬ offT (min (dt.length - offset) size) < 0 := by
    rw [offT]
    omega
  simp only [hclip]
  rw [if_neg hpos, if_neg (by omega), Int.toNat_natCast, slice_take_drop _ _ _ (by omega),
    slice_clip]

theorem read_huge {offset : Nat} (hsize : 2 ^ 63 ≤ size) (hsize' : size < 2 ^ 64)
    (hoff : offset < r.fileSz) : read img r size offset = .error .EINVAL := by
  have hneg : offT size < 0 := by
    rw [offT]
    omega
  have hclip : ¬ (r.fileSz : Int) - offset < offT size := by omega
  rw [read, if_neg (by omega)]
  simp [if_neg hclip, if_pos hneg]

end Loop

/-! ## Archives -/

theorem length_le_image (a : Archive) : a.files.length < a.image.length + 1 := by
  have hfiles : ∀ fs : List File, fs.length ≤ (fs.flatMap File.entry).length := by
    intro fs
    induction fs with
    | nil => exact Nat.le_refl 0
    | cons f fs ih =>
      rw [flatMap_cons, length_append, File.entry, length_entry, length_cons]
      simp only [hdrSize]
      omega
  have := hfiles a.files
  rw [Archive.image, length_append]
  omega

theorem mount_plain (hash32 : List UInt8 → UInt32) {a : Archive} (h : Plain a.files) :
    mount hash32 a.image = .ok ⟨[0] ++ allNames a.files, records hash32 a.files 0 1⟩ :=
  mountLoop_plain hash32 a.trailer a.tail a.files [] ⟨[0], []⟩ _ h (length_le_image a)

/-- **Mounting a cpio image.** For every archive and every request size: `mount` indexes its
files in order, `openat` finds exactly the listed names and `read` returns the bytes of the
file clipped at its end, exactly when no file but the last has `2 ^ 32 - 1` bytes (nor the last,
if it starts with the header of a file) and the request is smaller than `2 ^ 63`. -/
theorem mount_open_read_iff (hash32 : List UInt8 → UInt32) (a : Archive) (size : UInt64) :
    Right hash32 a size.toNat ↔
      Plain a.files ∧ (size.toNat < 2 ^ 63 ∨ ∀ f ∈ a.files, f.data = []) := by
  constructor
  · rintro ⟨ix, hmount, hfiles, -, hread⟩
    refine ⟨plain_of_files hash32 a.trailer a.tail a.files [] ⟨[0], []⟩ ix _ hmount hfiles, ?_⟩
    by_contra hnot
    push Not at hnot
    obtain ⟨hsize, f, hf, hne⟩ := hnot
    obtain ⟨i, hi, rfl⟩ := getElem_of_mem hf
    obtain ⟨r, hr⟩ : ∃ r, ix.files[i]? = some r :=
      ⟨_, getElem?_eq_getElem (by rwa [hfiles, length_records])⟩
    have hok := hread i hi r hr 0 (by decide)
    rw [hfiles] at hr
    obtain ⟨hsz, -⟩ := records_get a.trailer a.tail a.files [] 1 hi hr
    rw [read_huge (by omega) size.toNat_lt (hsz ▸ length_pos_of_ne_nil hne)] at hok
    cases hok
  · rintro ⟨hplain, hsize⟩
    refine ⟨_, mount_plain hash32 hplain, rfl,
      fun flags hflags => ⟨fun i hi => ?_, fun path _ hpath => ?_⟩, fun i hi r hr offset _ => ?_⟩
    · rw [openat_records _ _ hflags, findIdx_name a.distinct hi]
    · rw [openat_records _ _ hflags, findIdx_none hpath]
    · obtain ⟨hsz, pre, suf, himg, hofs⟩ := records_get a.trailer a.tail a.files [] 1 hi hr
      rcases hsize with hsmall | hempty
      · rw [Archive.image, ← imageFrom, ← nil_append (imageFrom ..), himg]
        exact read_small hsz hofs hsmall offset
      · rw [hempty _ (getElem_mem hi)] at hsz ⊢
        rw [read, if_pos (by rw [hsz]; exact Int.natCast_nonneg _), slice_of_length_le (zero_le _)]

def noMeta : Meta := ⟨0, 0, 0, 0, 0, 0, 0, 0⟩

/-- "a", `2 ^ 32 - 1` zero bytes. -/
def bigFile : File where
  info := noMeta
  name := [0x61]
  data := List.replicate (2 ^ 32 - 1) 0
  name_no_nul := by decide
  name_ne := by decide
  name_lt := by decide
  data_lt := by
    rw [length_replicate]
    decide

/-- "b", empty. -/
def emptyFile : File where
  info := noMeta
  name := [0x62]
  data := []
  name_no_nul := by decide
  name_ne := by decide
  name_lt := by decide
  data_lt := by decide

def lostArchive : Archive := ⟨[bigFile, emptyFile], by decide, noMeta, []⟩

theorem not_accepts_zeros (n : Nat) : ¬ Accepts (List.replicate n 0) := by
  rintro ⟨hmagic, -⟩
  have hzero : ∀ i, (replicate n (0 : UInt8)).getD i 0 = 0 := by
    intro i
    rw [getD_eq_getElem?_getD, getElem?_replicate]
    split <;> rfl
  rw [magic, readU16, hzero, hzero] at hmagic
  cases hmagic

/-- The file behind a file of `2 ^ 32 - 1` zero bytes is not indexed and cannot be opened. -/
theorem file_behind_lost : ∃ ix, mount (fun _ => 0) lostArchive.image = .ok ix ∧
    ix.files.length = 1 ∧ openat (fun _ => 0) ix emptyFile.name 0 = .error .ENOENT := by
  refine ⟨push (fun _ => 0) ⟨[0], []⟩ bigFile 0, ?_, rfl, rfl⟩
  have hlen : ∃ n, lostArchive.image.length = n + 1 :=
    Nat.exists_eq_succ_of_ne_zero (Nat.ne_of_gt
      (Nat.lt_of_lt_of_le (by decide) (le_length_imageFrom noMeta [] [bigFile, emptyFile])))
  obtain ⟨n, hn⟩ := hlen
  obtain ⟨pre', suf, hloop, -⟩ := mountLoop_cons_wrapped (fun _ => 0) noMeta []
    (show bigFile.data.length = 2 ^ 32 - 1 from length_replicate ..)
    [emptyFile] [] ⟨[0], []⟩ (n + 1)
  rw [mount, hn]
  refine hloop.trans (mountLoop_stop (add_refused ?_ (not_accepts_zeros _) _) n)
  rw [length_replicate]
  decide

end Dgos.L3.Tmpfs
