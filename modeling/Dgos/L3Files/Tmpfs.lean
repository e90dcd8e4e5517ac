import Dgos.Core.Outcome
import Dgos.Core.Words

/-!
# The initial ram disk `tmpfs_fs_t` (kernel/fs/tmpfs.cc)

`mount` walks over an old-binary cpio image and keeps, for each file, where its name and its
data are. `openat` compares a path with the names, `read` copies from the image.

A pointer into the image is its offset; `en` is the length of the image. Header fields are
little endian 16-bit words. The loop of `mount` only looks at headers that lie in the image,
but a name may reach over its end: `Err.fault`. Memory allocation and the copy to the user's
buffer succeed. `hash_32` is arbitrary.

`Archive` is what an image is made from: files with their metadata, the trailer, and what is
behind it.
-/
namespace Dgos.L3.Tmpfs

inductive Err
  | fault
  | fuel
  deriving DecidableEq, Repr

inductive Errno
  | EROFS
  | ENOENT
  | EINVAL
  deriving DecidableEq, Repr

/-- `file_t`.
mirrors tmpfs.cc:38-48 -/
structure FileT where
  nameOfs : Nat
  nameSz : Nat
  fileOfs : Nat
  nameHash : UInt32
  fileSz : Nat
  mtime : Nat
  ino : Nat
  mode : Nat
  nlink : Nat
  deriving DecidableEq, Repr

/-- `names` and `files`. -/
structure Index where
  names : List UInt8
  files : List FileT
  deriving DecidableEq, Repr

/-! ## `cpio_hdr_t` at offset `hdr` of the image -/

/-- `sizeof(cpio_hdr_t)` -/
def hdrSize : Nat := 26

section Header

variable (img : List UInt8) (hdr : Nat)

def magic : Nat := readU16 img hdr
def ino : Nat := readU16 img (hdr + 2 * 2)
def mode : Nat := readU16 img (hdr + 2 * 3)
def nlink : Nat := readU16 img (hdr + 2 * 6)
def namesize : Nat := readU16 img (hdr + 2 * 10)

/-- mirrors tmpfs.cc:71-74 -/
def filesize : Nat := readU16 img (hdr + 2 * 11) <<< 16 ||| readU16 img (hdr + 2 * 12)

/-- mirrors tmpfs.cc:76-79 -/
def mtime : Nat := readU16 img (hdr + 2 * 8) <<< 16 ||| readU16 img (hdr + 2 * 9)

/-- mirrors tmpfs.cc:81-84 -/
def name : Nat := hdr + hdrSize

/-- mirrors tmpfs.cc:86-89 -/
def data : Nat := hdr + hdrSize + namesize img hdr + (namesize img hdr &&& 1)

/-- "TRAILER!!!" -/
def trailerName : List UInt8 := [0x54, 0x52, 0x41, 0x49, 0x4C, 0x45, 0x52, 0x21, 0x21, 0x21]

/-- `cpio_hdr_t::next`. The padded file size is a 32-bit number.
mirrors tmpfs.cc:91-106 -/
def next : Option Nat :=
  if namesize img hdr = 11 ∧ slice img (name hdr) 10 = trailerName ∧ filesize img hdr = 0 then none
  else
    let nextHdr := data img hdr + (filesize img hdr + (filesize img hdr &&& 1)) % 2 ^ 32
    if img.length < nextHdr + hdrSize then none else some nextHdr

/-- `add` takes the entry for the trailer.
mirrors tmpfs.cc:127-132 -/
def isTrailer : Bool :=
  namesize img hdr = 11 ∧ slice img (name hdr) 11 = trailerName ++ [0]

end Header

section Mount

variable (hash32 : List UInt8 → UInt32)

/-- The record `add` makes of a header.
mirrors tmpfs.cc:114-125 -/
def fileAt (img : List UInt8) (hdr : Nat) (ix : Index) : FileT where
  fileOfs := data img hdr
  nameOfs := ix.names.length
  nameSz := namesize img hdr
  fileSz := filesize img hdr
  nameHash :=
    if namesize img hdr ≠ 0 then hash32 (slice img (name hdr) (namesize img hdr - 1)) else 0
  ino := ino img hdr
  mode := mode img hdr
  mtime := mtime img hdr
  nlink := nlink img hdr

/-- `tmpfs_fs_t::add`.
mirrors tmpfs.cc:109-146 -/
def add (img : List UInt8) (hdr : Nat) (ix : Index) : Except Err (Option Nat × Index) :=
  if magic img hdr ≠ 0x71c7 then .ok (none, ix)
  else if img.length < name hdr + namesize img hdr then .error .fault
  else if isTrailer img hdr then .ok (none, ix)
  else
    .ok (next img hdr,
      { names := ix.names ++ slice img (name hdr) (namesize img hdr)
        files := ix.files ++ [fileAt hash32 img hdr ix] })

/-- The loop of `mount`. Each turn goes on to a header further behind, so the length of the
image bounds the number of turns.
mirrors tmpfs.cc:168-176 -/
def mountLoop (img : List UInt8) : Nat → Nat → Index → Except Err Index
  | 0, _, _ => .error .fuel
  | fuel + 1, hdr, ix =>
    if hdr + hdrSize < img.length then do
      match ← add hash32 img hdr ix with
      | (none, ix) => return ix
      | (some _, ix) =>
        match next img hdr with
        | none => return ix
        | some nextHdr => mountLoop img fuel nextHdr ix
    else .ok ix

/-- `tmpfs_fs_t::mount`. The names start with one zero byte.
mirrors tmpfs.cc:156-182 -/
def mount (img : List UInt8) : Except Err Index :=
  mountLoop hash32 img (img.length + 1) 0 ⟨[0], []⟩

/-- The loop of `openat`.
mirrors tmpfs.cc:402-415 -/
def openLoop (names path : List UInt8) : List FileT → Nat → Except Errno Nat
  | [], _ => .error .ENOENT
  | file :: files, index =>
    if file.nameHash = hash32 path ∧ file.nameSz = path.length + 1 ∧
        slice names file.nameOfs path.length = path then .ok index
    else openLoop names path files (index + 1)

/-- `O_CREAT | O_TRUNC` -/
def writeFlags : Nat := 0x20 ||| 0x40000

/-- `tmpfs_fs_t::openat`: the index of the file opened.
mirrors tmpfs.cc:391-422 -/
def openat (ix : Index) (path : List UInt8) (flags : Nat) : Except Errno Nat :=
  if flags &&& writeFlags ≠ 0 then .error .EROFS else openLoop hash32 ix.names path ix.files 0

end Mount

/-- `off_t(size)` -/
def offT (size : Nat) : Int := if size < 2 ^ 63 then size else (size : Int) - 2 ^ 64

/-- `tmpfs_fs_t::read`: the bytes copied.
mirrors tmpfs.cc:434-465 -/
def read (img : List UInt8) (file : FileT) (size : Nat) (offset : Int) :
    Except Errno (List UInt8) :=
  if (file.fileSz : Int) ≤ offset then .ok []
  else
    let avail := (file.fileSz : Int) - offset
    let size := if avail < offT size then avail.toNat else size
    if offT size < 0 then .error .EINVAL
    else if offset < 0 then .error .EINVAL
    else .ok (slice img (file.fileOfs + offset.toNat) size)

/-! ## Archives -/

/-- What a header says about a file besides its sizes. -/
structure Meta where
  dev : UInt16
  ino : UInt16
  mode : UInt16
  uid : UInt16
  gid : UInt16
  nlink : UInt16
  rdev : UInt16
  mtime : UInt32

/-- A file that can be stored. -/
structure File where
  info : Meta
  name : List UInt8
  data : List UInt8
  name_no_nul : 0 ∉ name
  name_ne : name ≠ trailerName
  name_lt : name.length + 1 < 2 ^ 16
  data_lt : data.length < 2 ^ 32

/-- Fill up to two bytes. -/
def pad (l : List UInt8) : List UInt8 := l ++ List.replicate (l.length % 2) 0

def header (m : Meta) (namesize filesize : Nat) : List Nat :=
  [0x71c7, m.dev.toNat, m.ino.toNat, m.mode.toNat, m.uid.toNat, m.gid.toNat, m.nlink.toNat,
    m.rdev.toNat, m.mtime.toNat / 2 ^ 16, m.mtime.toNat % 2 ^ 16, namesize,
    filesize / 2 ^ 16, filesize % 2 ^ 16]

/-- One entry: header, name with its terminator, data. -/
def entry (m : Meta) (name data : List UInt8) : List UInt8 :=
  words (header m (name.length + 1) data.length) ++ (pad (name ++ [0]) ++ pad data)

def File.entry (f : File) : List UInt8 := Tmpfs.entry f.info f.name f.data

/-- Files with different names, the metadata of the trailer, and what is behind the trailer. -/
structure Archive where
  files : List File
  distinct : (files.map File.name).Nodup
  trailer : Meta
  tail : List UInt8

def Archive.image (a : Archive) : List UInt8 :=
  a.files.flatMap File.entry ++ (entry a.trailer trailerName [] ++ a.tail)

/-- The record of a file whose entry is at offset `ofs` and whose name goes to `nameOfs`. -/
def File.record (hash32 : List UInt8 → UInt32) (f : File) (ofs nameOfs : Nat) : FileT where
  nameOfs := nameOfs
  nameSz := f.name.length + 1
  fileOfs := ofs + hdrSize + (pad (f.name ++ [0])).length
  nameHash := hash32 f.name
  fileSz := f.data.length
  mtime := f.info.mtime.toNat
  ino := f.info.ino.toNat
  mode := f.info.mode.toNat
  nlink := f.info.nlink.toNat

/-- The records of files one behind the other. -/
def records (hash32 : List UInt8 → UInt32) : List File → Nat → Nat → List FileT
  | [], _, _ => []
  | f :: fs, ofs, nameOfs =>
    f.record hash32 ofs nameOfs ::
      records hash32 fs (ofs + f.entry.length) (nameOfs + (f.name.length + 1))

/-- What mounting, opening and reading have to do for an archive, with requests of `size`
bytes. -/
def Right (hash32 : List UInt8 → UInt32) (a : Archive) (size : Nat) : Prop :=
  ∃ ix, mount hash32 a.image = .ok ix ∧ ix.files = records hash32 a.files 0 1 ∧
    (∀ flags, flags &&& writeFlags = 0 →
      (∀ i (hi : i < a.files.length), openat hash32 ix a.files[i].name flags = .ok i) ∧
      ∀ path, 0 ∉ path → path ∉ a.files.map File.name →
        openat hash32 ix path flags = .error .ENOENT) ∧
    ∀ i (hi : i < a.files.length) (r : FileT), ix.files[i]? = some r →
      ∀ offset : Nat, offset < 2 ^ 63 →
        read a.image r size offset = .ok (slice a.files[i].data offset size)

end Dgos.L3.Tmpfs
