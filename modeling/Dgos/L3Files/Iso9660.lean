import Dgos.L1Data.BinarySearch
import Dgos.L1Data.Utf
import Dgos.L3Files.Fat

/-!
# Path lookup on ISO 9660 volumes (kernel/fs/iso9660/iso9660.cc)

`lookup_dirent` finds the directory record for a path. The part in front of the last `/` is
looked up in the path table, one component after the other, by binary search. The last
component is then searched for among the records of the directory. There are two sets of
comparators, one for volumes with plain ISO 9660 names and one for Joliet names (UTF-16, big
endian).

Pointers into the path and into names are positions in a `Buf`, pointers to records are offsets
from `mm_dev`, pointers to path table records are indices into `pt_ptrs`. What lies behind the
terminator of the path is part of the path's buffer, because the lookup reads it.

Two loops of the comparators do not end for some names (`Err.hang`), and the length of a path
table name is computed with a wrong base, such that the names with less than 8 bytes make
`memrchr` run through the memory in front of the table (`Err.outOfBounds`).

The sectors of the drive are the volume's blocks of 2048 bytes.
-/
namespace Dgos.L3.Iso9660

open L1.BinarySearch L1.Utf L1.Utf8

inductive Err
  | outOfBounds
  | hang
  deriving DecidableEq, Repr

/-- The first place of `c` in the `n` bytes from `p` on, as an offset from `p`. -/
def memchr (m : Buf) (p : Nat) (c : UInt8) (n : Nat) : Option Nat :=
  (List.range n).find? fun i => m (p + i) = c

/-- The last one. -/
def memrchr (m : Buf) (p : Nat) (c : UInt8) (n : Nat) : Option Nat :=
  (List.range n).reverse.find? fun i => m (p + i) = c

/-- The difference of two unsigned numbers, as `int`. -/
def diff32 (a b : Nat) : Int := ((a : Int) - b + 2 ^ 31) % 2 ^ 32 - 2 ^ 31

/-- A decoded character as `char32_t`. -/
def char32 (c : Option Nat) : Nat := c.getD (2 ^ 32 - 1)

/-- A `char` as `char32_t`. -/
def char32OfChar (b : UInt8) : Nat := if b.toNat < 128 then b.toNat else b.toNat + (2 ^ 32 - 256)

/-! ## Comparing names -/

/-- `p < limit` for a limit that may be null. -/
def before (p : Nat) : Option Nat → Bool
  | none => false
  | some limit => p < limit

/-- `key_codepoint`, and where `find` is behind it.
mirrors iso9660.cc:360-362 -/
def asciiKey (m : Buf) (findLimit : Option Nat) (find : Nat) : Option Nat × Nat :=
  if before find findLimit then utf8ToUcs4Upd m find else (some 0x20, find)

/-- `chk_codepoint`; the pointer `chk` stays at the start of the name.
mirrors iso9660.cc:363-365 -/
def asciiChk (chk : Buf) (chkLimit : Option Nat) : Nat :=
  if before 0 chkLimit then char32OfChar (chk 0) else 0x20

/-- One pass of `name_compare_ascii`: the result to return if it is not 0, and `find`.
mirrors iso9660.cc:359-385 -/
def asciiPass (chk m : Buf) (chkLimit findLimit : Option Nat) : Nat → Nat → Except Err (Int × Nat)
  | 0, _ => .error .hang
  | fuel + 1, find =>
    if before find findLimit ∨ before 0 chkLimit then
      let key := asciiKey m findLimit find
      let cmp := diff32 (asciiChk chk chkLimit) (char32 key.1)
      if cmp ≠ 0 then .ok (cmp, key.2) else asciiPass chk m chkLimit findLimit fuel key.2
    else .ok (0, find)

/-- mirrors iso9660.cc:341-392 -/
def nameCompareAscii (name : Buf) (nameLen : Nat) (m : Buf) (find findLen : Nat) :
    Except Err Int := do
  let findLimit := (memrchr m find 0x2E findLen).map (find + ·)
  let chkLimit := memrchr name 0 0x2E nameLen
  let chkEnd := memrchr name 0 0x3B nameLen
  let (cmp, find') ← asciiPass name m chkLimit findLimit (findLen + 1) find
  if cmp ≠ 0 then .ok cmp
  else do
    let (cmp, _) ← asciiPass name m chkEnd (some (find + findLen)) (findLen + 1) find'
    .ok cmp

/-- The 16 bit word number `k` of a name. -/
def word (name : Buf) (k : Nat) : Nat := (name (2 * k)).toNat + 2 ^ 8 * (name (2 * k + 1)).toNat

/-- `utf16be_to_ucs4` at word `chk`; it looks at two words at most. -/
def utf16beAt (name : Buf) (chk : Nat) : Nat × Nat :=
  match utf16beToUcs4 [word name chk, word name (chk + 1)] with
  | some (c, rest) => (c, chk + (2 - rest.length))
  | none => (0, chk)

/-- mirrors iso9660.cc:404-430 -/
def utf16beLoop (name m : Buf) (chkEnd findEnd : Nat) : Nat → Nat → Nat → Except Err Int
  | 0, _, _ => .error .hang
  | fuel + 1, find, chk =>
    if find < findEnd ∨ chk < chkEnd then
      let key := if find < findEnd then utf8ToUcs4Upd m find else (some 0, find)
      let chk' := if chk < chkEnd then utf16beAt name chk else (0, chk)
      let cmp := diff32 (char32 key.1) chk'.1
      if cmp = 0 then utf16beLoop name m chkEnd findEnd fuel key.2 chk'.2 else .ok cmp
    else .ok 0

/-- mirrors iso9660.cc:394-433 -/
def nameCompareUtf16be (name : Buf) (nameLen : Nat) (m : Buf) (find findLen : Nat) :
    Except Err Int :=
  utf16beLoop name m (nameLen / 2) (find + findLen) (findLen + nameLen + 1) find 0

/-! ## The path table -/

/-- `iso9660_pt_rec_t`; `name` is what is in memory from the name on.
mirrors iso9660_decl.h:201-208 -/
structure PtRec where
  diLen : Nat
  lba : Nat
  parentDn : Nat
  name : Buf

instance : Inhabited PtRec := ⟨⟨0, 0, 0, fun _ => 0⟩⟩

/-- The component at `name` of a path in memory, and the number of the directory it is in.
mirrors iso9660.cc:41-45 -/
structure PathKey where
  name : Nat
  len : Nat
  parent : Nat

/-- `iso9660_fs_t`: which comparators it uses, `pt_ptrs` and the bytes from `mm_dev` on. -/
structure Fs where
  joliet : Bool
  ptPtrs : List PtRec
  mmDev : Buf

/-- mirrors iso9660.cc:435-451 -/
def lookupPathCmpAscii (rec : PtRec) (m : Buf) (key : PathKey) : Except Err Int :=
  if rec.parentDn ≠ key.parent then .ok (diff32 key.parent rec.parentDn)
  else if rec.diLen < 8 then .error .outOfBounds
  else nameCompareAscii rec.name (rec.diLen - 8) m key.name key.len

/-- mirrors iso9660.cc:453-466 -/
def lookupPathCmpUtf16be (rec : PtRec) (m : Buf) (key : PathKey) : Except Err Int :=
  if rec.parentDn ≠ key.parent then .ok (diff32 key.parent rec.parentDn)
  else nameCompareUtf16be rec.name rec.diLen m key.name key.len

namespace Fs

variable (fs : Fs)

/-- The comparators are chosen when the volume is mounted.
mirrors iso9660.cc:634-659 -/
def lookupPathCmp : PtRec → Buf → PathKey → Except Err Int :=
  if fs.joliet then lookupPathCmpUtf16be else lookupPathCmpAscii

def nameCompare : Buf → Nat → Buf → Nat → Nat → Except Err Int :=
  if fs.joliet then nameCompareUtf16be else nameCompareAscii

def pt (i : Nat) : PtRec := fs.ptPtrs.getD i default

/-- One search of the path table; a negative result is `none`.
mirrors iso9660.cc:490-496 -/
def searchTable (m : Buf) (key : PathKey) : Except Err (Option Nat) := do
  let next ← binarySearch (fun i => fs.lookupPathCmp (fs.pt i) m key) true fs.ptPtrs.length
  .ok (if next < 0 then none else some next.toNat)

/-- mirrors iso9660.cc:480-502 -/
def lookupPathLoop (m : Buf) (pathLen : Nat) :
    Nat → Option Nat → Nat → Nat → Except Err (Option Nat)
  | 0, _, _, _ => .error .hang
  | fuel + 1, last, parent, name =>
    match memchr m name 0x2F pathLen with
    | none => .ok last
    | some len => do
      match ← fs.searchTable m ⟨name, len, parent⟩ with
      | none => .ok last
      | some next => lookupPathLoop m pathLen fuel (some next) (next + 1) (name + len + 1)

/-- The path table record with the directory of a path; `path_len` is the length of the whole
path. The loop can run on in the memory behind the path.
mirrors iso9660.cc:468-505 -/
def lookupPath (fuel : Nat) (m : Buf) (pathLen : Nat) : Except Err (Option Nat) :=
  fs.lookupPathLoop m pathLen fuel none 1 0

/-! ## Directories -/

/-- A 32 bit number from two 16 bit halves, put together as `int` and returned as `uint64_t`. -/
def le32 (p : Nat) : Nat :=
  Fat.signExtend ((fs.mmDev p).toNat + 2 ^ 8 * (fs.mmDev (p + 1)).toNat +
    2 ^ 16 * (fs.mmDev (p + 2)).toNat + 2 ^ 24 * (fs.mmDev (p + 3)).toNat)

/-- mirrors iso9660.cc:182-189 -/
def direntSize (de : Nat) : Nat := fs.le32 (de + 10)

/-- mirrors iso9660.cc:507-510 -/
def lookupSector (lba : Nat) : Nat := lba * 2 ^ 11 % 2 ^ 64

/-- mirrors iso9660.cc:512-518 -/
def nextDirent (dir ofs : Nat) : Nat :=
  let len := (fs.mmDev (dir + ofs)).toNat
  if len ≠ 0 then ofs + (len + 1) / 2 * 2 else (ofs + 2047) / 2048 * 2048

/-- The name of the record at `de` compared with a component.
mirrors iso9660.cc:565 -/
def compareAt (de : Nat) (m : Buf) (name nameLen : Nat) : Except Err Int :=
  fs.nameCompare (fun i => fs.mmDev (de + 33 + i)) (fs.mmDev (de + 32)).toNat m name nameLen

/-- mirrors iso9660.cc:562-570 -/
def scanLoop (m : Buf) (name nameLen dir dirLen : Nat) : Nat → Nat → Except Err (Option Nat)
  | 0, _ => .error .hang
  | fuel + 1, ofs =>
    if ofs < dirLen then do
      let cmp ← fs.compareAt (dir + ofs) m name nameLen
      if cmp = 0 then .ok (some (dir + ofs))
      else scanLoop m name nameLen dir dirLen fuel (fs.nextDirent dir ofs)
    else .ok none

end Fs

/-- A path: the memory it is in, and its length. -/
structure CString where
  mem : Buf
  len : Nat
  text : ∀ i < len, mem i ≠ 0
  terminated : mem len = 0

namespace Fs

variable (fs : Fs)

/-- The directory part: it ends in front of the last `/`.
mirrors iso9660.cc:526-540 -/
def splitPath (pathname : CString) : Nat × Nat × Nat :=
  match memrchr pathname.mem 0 0x2F pathname.len with
  | some sep => (sep, sep + 1, pathname.len - sep - 1)
  | none => (0, 0, pathname.len)

/-- The path table record to look in; there is no search for a path in the root.
mirrors iso9660.cc:542-548 -/
def pathRec (fuel : Nat) (pathname : CString) (pathLen : Nat) : Except Err (Option Nat) :=
  if 0 < pathLen then fs.lookupPath fuel pathname.mem pathname.len else .ok (some 0)

/-- Where the record is, as an offset from `mm_dev`. The fuel is for the search of the path
table, which no bound fits.
mirrors iso9660.cc:520-573 -/
def lookupDirent (fuel : Nat) (pathname : CString) : Except Err (Option Nat) := do
  let (pathLen, name, nameLen) := splitPath pathname
  match ← fs.pathRec fuel pathname pathLen with
  | none => .ok none
  | some i =>
    let dir := lookupSector (Fat.signExtend (fs.pt i).lba)
    let dirLen := fs.direntSize dir
    fs.scanLoop pathname.mem name nameLen dir dirLen (dirLen + 1) 0

end Fs

end Dgos.L3.Iso9660
