import Dgos.Core.Words
import Dgos.L1Data.Utf
import Dgos.L1Data.Utf8
import Dgos.L3Files.Fat32

/-!
# Directories (kernel/fs/fat32/fat32.cc)

A directory is a chain of clusters full of entries of 32 bytes. A file has a short entry with a
name of 11 bytes, and in front of it long entries with 13 UTF-16 units of its name each, the last
part of the name first. The long entries carry a checksum of the short name.

`search_dir` goes through all entries and compares them with the ones it would make for the name.
`dirent_create` looks for enough free entries in one cluster, or appends a cluster, and writes the
new ones there. The short name that `fcbname_from_lfn` made of the name gets replaced by one that
is made of the position in the directory.

A pointer to a directory entry is the offset of its first byte in the data area; the fragments of
a name are at the offsets 0, 32, 64 ... of a memory of their own.
-/
namespace Dgos.L3.Fat32

open Dgos.L1.Utf (ucs4ToUtf16)
open Dgos.L1.Utf8 (utf8ToUcs4Upd)

/-! ## Names -/

/-- The long entries of a name in the order of the directory, and then the short entry.
mirrors fat32.cc:35-37 -/
structure FullLfn where
  fragments : Buf
  lfnEntryCount : Nat

/-- mirrors fat32.cc:275-288 -/
def lfnChecksum (m : Buf) (fcbName : Nat) : UInt8 :=
  (peek m fcbName 11).foldl (fun sum c => ((sum &&& 1) <<< 7) + (sum >>> 1) + c) 0

/-- What `conv_dos_char` tells about the characters it has seen. -/
structure CaseFlags where
  lower : Bool
  upper : Bool
  long : Bool

/-- The characters of the literal in the source one after the other.
mirrors fat32.cc:32-33 -/
def allowedDosChars : List Nat :=
  [0x5F, 0x5E, 0x24, 0x7E, 0x21, 0x23, 0x25, 0x26, 0x2D, 0x7B, 0x7D, 0x40, 0x60, 0x27, 0x28, 0x29]

/-- mirrors fat32.cc:514-543 -/
def convDosChar (codepoint : Nat) (flags : CaseFlags) : Nat × CaseFlags :=
  if 0x41 ≤ codepoint ∧ codepoint ≤ 0x5A then (codepoint, { flags with upper := true })
  else if 0x61 ≤ codepoint ∧ codepoint ≤ 0x7A then
    (codepoint + 0x41 - 0x61, { flags with lower := true })
  else if 0x30 ≤ codepoint ∧ codepoint ≤ 0x39 ∨
      32 < codepoint ∧ codepoint < 127 ∧ codepoint ∈ allowedDosChars then (codepoint, flags)
  else (0, { flags with long := true })

/-- The position of the last dot, or the end.
mirrors fat32.cc:301-307 -/
def lastDot (lfn : List Nat) : Nat → Nat
  | 0 => lfn.length
  | i + 1 => if lfn.getD i 0 = 0x2E then i else lastDot lfn i

/-- The loop that converts the name or the extension: from `i` up to `stop`, at most `room`
characters, to `out`.
mirrors fat32.cc:311-318 and 337-342 -/
def fcbPart (lfn : List Nat) (stop : Nat) :
    Nat → Nat → Nat → CaseFlags → Buf → Nat × CaseFlags × Buf
  | 0, i, _, flags, m => (i, flags, m)
  | room + 1, i, out, flags, m =>
    if i < stop then
      let (outChar, flags) := convDosChar (lfn.getD i 0) flags
      let outChar := if outChar ≠ 0 then outChar else 0x5F
      fcbPart lfn stop room (i + 1) (out + 1) flags (poke m out [UInt8.ofNat outChar])
    else (i, flags, m)

/-- `lowercase_flags |= bit`, if that part of the name is in lower case. -/
def markLower (m : Buf) (fcbfrag : Nat) (flags : CaseFlags) (bit : UInt8) : Buf :=
  if !flags.long ∧ flags.lower ∧ !flags.upper then
    poke m (fcbfrag + 12) [m (fcbfrag + 12) ||| bit]
  else m

/-- The name and the flags of the short entry at `fcbname`, and `any_long`.
mirrors fat32.cc:294-347 -/
def fcbFields (m : Buf) (fcbname : Nat) (lfn : List Nat) : Buf × Bool :=
  let m := poke m fcbname (List.replicate 11 0x20)
  let dot := lastDot lfn lfn.length
  let (_, flags, m) := fcbPart lfn dot 8 0 fcbname ⟨false, false, 8 < dot⟩ m
  let m := markLower m fcbname flags 0x08
  let (i, flags, m) := fcbPart lfn lfn.length 3 (dot + 1) (fcbname + 8) ⟨false, false, flags.long⟩ m
  let flags := if i < lfn.length then { flags with long := true } else flags
  (markLower m fcbname flags 0x10, flags.long)

/-- A name in lower case that fits is a short entry alone.
mirrors fat32.cc:290-353 -/
def fcbnameFromLfn (full : FullLfn) (lfn : List Nat) : FullLfn :=
  let fcbname := 32 * full.lfnEntryCount
  let (m, anyLong) := fcbFields full.fragments fcbname lfn
  if !anyLong ∧ m (fcbname + 12) ≠ 0 then ⟨poke m 0 (peek m fcbname 32), 0⟩
  else ⟨m, full.lfnEntryCount⟩

/-- The UTF-16 units of the text from a position up to `e`; a character is decoded in any case.
mirrors fat32.cc:362-371 -/
def utf16From (text : Buf) (e : Nat) : Nat → Nat → List Nat
  | 0, _ => []
  | fuel + 1, utf8In =>
    let (codepoint, utf8In) := utf8ToUcs4Upd text utf8In
    let (n, units) := ucs4ToUtf16 (codepoint.getD 0xFFFFFFFF)
    units.take n ++ if utf8In < e then utf16From text e fuel utf8In else []

/-- The place of a unit in a long entry.
mirrors fat32.cc:385-397 -/
def unitDest (fragmentOfs : Nat) : Nat :=
  if fragmentOfs < 5 then 1 + fragmentOfs <<< 1
  else if fragmentOfs < 11 then 14 + (fragmentOfs - 5) <<< 1
  else 28 + (fragmentOfs - 11) <<< 1

/-- The loop that fills the long entries; the name is terminated and then filled up.
mirrors fat32.cc:377-411 -/
def fillFragments (lfn : List Nat) : Nat → Nat → Nat → Nat → Buf → Buf
  | 0, _, _, _, m => m
  | fuel + 1, ofs, fragmentOfs, frag, m =>
    if ofs < lfn.length ∨ fragmentOfs ≠ 0 then
      let m := if fragmentOfs = 0 then poke m (frag + 11) [0x0F] else m
      let m := poke m (frag + unitDest fragmentOfs)
        (if ofs ≤ lfn.length then word (lfn.getD ofs 0) else [0xFF, 0xFF])
      if fragmentOfs + 1 = 13 then fillFragments lfn fuel (ofs + 1) 0 (frag - 32) m
      else fillFragments lfn fuel (ofs + 1) (fragmentOfs + 1) frag m
    else m

/-- The byte at offset `k` of the first `n` fragments. -/
def putEach (k : Nat) (byte : Nat → UInt8) : Nat → Buf → Buf
  | 0, m => m
  | n + 1, m => poke (putEach k byte n m) (32 * n + k) [byte n]

/-- mirrors fat32.cc:418-419 and 927-928 -/
def putChecksums (checksum : UInt8) : Nat → Buf → Buf := putEach 13 fun _ => checksum

/-- mirrors fat32.cc:420-423 -/
def ordinal (count i : Nat) : UInt8 := UInt8.ofNat (if i = 0 then count ||| 0x40 else count - i)

/-- mirrors fat32.cc:418-424 -/
def putOrdinals (count : Nat) : Buf → Buf := putEach 0 (ordinal count) count

/-- The entries for the units of a name.
mirrors fat32.cc:373-424 -/
def direntsFromUnits (lfn : List Nat) : FullLfn :=
  let count := (lfn.length + 12) / 13
  let m := fillFragments lfn (lfn.length + 13) 0 0 (32 * (count - 1)) fun _ => 0
  let full := fcbnameFromLfn ⟨m, count⟩ lfn
  let checksum := lfnChecksum full.fragments (32 * count)
  let m := putChecksums checksum full.lfnEntryCount full.fragments
  ⟨putOrdinals full.lfnEntryCount m, full.lfnEntryCount⟩

/-- The buffer for the units has 256 of them.
mirrors fat32.cc:355-425 -/
def direntsFromName (text : Buf) (pathname nameLen : Nat) : Except Err FullLfn :=
  let lfn := utf16From text (pathname + nameLen) (nameLen + 1) pathname
  if 256 ≤ lfn.length then .error .outOfBounds else .ok (direntsFromUnits lfn)

/-! ## Iterating -/

section Iterate

variable {σ : Type}

/-- The entries of one cluster from the `i`-th on; `n` are left. The callback gets the entry, the
cluster and whether it is the first one of the cluster, and says whether to go on.
mirrors fat32.cc:644-648 -/
def visitCluster (callback : σ → Nat → Nat → Bool → Bool × σ) (cluster : Nat) :
    Nat → Nat → Nat → σ → Bool × σ
  | 0, _, _, s => (true, s)
  | n + 1, i, de, s =>
    match callback s de cluster (i == 0) with
    | (true, s) => visitCluster callback cluster n (i + 1) (de + 32) s
    | (false, s) => (false, s)

/-- `iterate_dir`: whether the callback never returned false, what it has collected, the state and
the last cluster that was appended. The callback reads the mapped volume.
mirrors fat32.cc:630-659 -/
def iterateDir (v : Volume) (callback : Buf → σ → Nat → Nat → Bool → Bool × σ) (extend : Bool) :
    Nat → St → Nat → Nat → σ → Except Err (Bool × σ × St × Nat)
  | 0, _, _, _, _ => .error .fuel
  | fuel + 1, st, cluster, extendCluster, s =>
    if isEof cluster then .ok (true, s, st, extendCluster)
    else do
      let de ← offsetofCluster v cluster
      if v.inData de v.blockSize then
        match visitCluster (callback st.dev) cluster (v.blockSize >>> 5) 0 de s with
        | (false, s) => .ok (false, s, st, extendCluster)
        | (true, s) =>
          let entry ← fatAt v st cluster
          if extend ∧ isEof entry then
            let (alloc, st) ← allocateNear v st cluster
            iterateDir v callback extend fuel st alloc alloc s
          else iterateDir v callback extend fuel st entry extendCluster s
      else .error .outOfBounds

end Iterate

/-- Without a cycle no cluster comes twice, so the FAT bounds the turns. -/
def turns (v : Volume) : Nat := v.fatEntries + 1

/-! ## Searching -/

structure SearchSt where
  matchIndex : Nat
  lastChecksum : UInt8
  result : Option Nat

/-- The long entry at `de` is the fragment at `le`.
mirrors fat32.cc:709-721 -/
def sameFragment (m : Buf) (le : Nat) (dev : Buf) (de : Nat) : Bool :=
  m le = dev de ∧ peek m (le + 1) 10 = peek dev (de + 1) 10 ∧
    peek m (le + 14) 12 = peek dev (de + 14) 12 ∧ peek m (le + 28) 4 = peek dev (de + 28) 4

/-- mirrors fat32.cc:674-731 -/
def searchCallback (lfn : FullLfn) (dev : Buf) (s : SearchSt) (de : Nat) : Bool × SearchSt :=
  if dev (de + 11) = 0 then (true, { s with matchIndex := 0 })
  else if dev (de + 11) ≠ 0x0F then
    if lfn.lfnEntryCount = 0 ∧ peek dev de 11 = peek lfn.fragments 0 11 then
      (false, { s with result := some de })
    else if lfn.lfnEntryCount ≠ 0 ∧ s.matchIndex = lfn.lfnEntryCount ∧
        s.lastChecksum = lfnChecksum dev de then (false, { s with result := some de })
    else (true, { s with matchIndex := 0 })
  else if s.matchIndex < lfn.lfnEntryCount then
    if sameFragment lfn.fragments (32 * s.matchIndex) dev de then
      (true, { s with lastChecksum := dev (de + 13), matchIndex := s.matchIndex + 1 })
    else (true, { s with matchIndex := 0 })
  else (true, { s with matchIndex := 0 })

/-- mirrors fat32.cc:661-740 -/
def searchDir (v : Volume) (st : St) (cluster : Nat) (text : Buf) (filename nameLen : Nat) :
    Except Err (Option Nat) := do
  let lfn ← direntsFromName text filename nameLen
  let (_, s, _, _) ← iterateDir v (fun dev s de _ _ => searchCallback lfn dev s de) false (turns v)
    st cluster 0 ⟨0, 0, none⟩
  return s.result

/-! ## Creating -/

/-- mirrors fat32.cc:906 -/
def enc : List UInt8 :=
  [0x41, 0x42, 0x43, 0x44, 0x45, 0x46, 0x47, 0x48, 0x4A, 0x4B, 0x4C, 0x4D, 0x4E, 0x50, 0x52, 0x53,
    0x54, 0x55, 0x57, 0x58, 0x59, 0x5A, 0x30, 0x31, 0x32, 0x33, 0x34, 0x35, 0x36, 0x37, 0x38, 0x39]

/-- The short name for a position in the directory: five bits for each character, and `~999` in
the middle.
mirrors fat32.cc:908-924 -/
def uniqueShortname (dirIndex : Nat) : List UInt8 :=
  let digit (k : Nat) : UInt8 := enc.getD (dirIndex >>> (5 * k) &&& 31) 0
  [digit 0, digit 1, digit 2, digit 3, 0x7E, 0x39, 0x39, 0x39, digit 4, digit 5, digit 6]

/-- mirrors fat32.cc:901-929 -/
def generateUniqueShortname (lfn : FullLfn) (dirIndex : Nat) : FullLfn :=
  let shortName := 32 * lfn.lfnEntryCount
  let m := poke lfn.fragments shortName (uniqueShortname dirIndex)
  { lfn with fragments := putChecksums (lfnChecksum m shortName) lfn.lfnEntryCount m }

/-- mirrors fat32.cc:556-560 -/
def isDirentFree (dev : Buf) (de : Nat) : Bool := dev de = 0 ∨ dev de = 0xE5

/-- The variables of the search for free entries.
mirrors fat32.cc:934-947 -/
structure InsertSt where
  insPoint : Option Nat
  resultCluster : Nat
  prevCluster : Nat
  lastCluster : Nat
  consecutiveFree : Nat
  dirIndex : Nat
  insIndex : Nat

/-- A run of free entries does not go on in another cluster.
mirrors fat32.cc:952-957 -/
def enterCluster (s : InsertSt) (newCluster : Bool) : InsertSt :=
  if newCluster then { s with prevCluster := s.lastCluster, consecutiveFree := 0, insPoint := none }
  else s

/-- One more free entry; the first one is remembered.
mirrors fat32.cc:970-975 -/
def extendRun (s : InsertSt) (de cluster : Nat) : InsertSt :=
  let s := { s with consecutiveFree := s.consecutiveFree + 1 }
  if s.consecutiveFree = 1 then
    { s with resultCluster := cluster, insPoint := some de, insIndex := s.dirIndex - 1 }
  else s

/-- mirrors fat32.cc:950-979 -/
def insertCallback (count : Nat) (dev : Buf) (s : InsertSt) (de cluster : Nat)
    (newCluster : Bool) : Bool × InsertSt :=
  let s := enterCluster s newCluster
  let s := { s with lastCluster := cluster, dirIndex := s.dirIndex + 1 }
  if isDirentFree dev de then
    let s := extendRun s de cluster
    (s.consecutiveFree < count, s)
  else (true, { s with consecutiveFree := 0, insPoint := none })

/-- `fat[cluster] = fat2[cluster] = entry` -/
def putFat (v : Volume) (st : St) (cluster entry : Nat) : Except Err St :=
  if cluster < v.fatEntries then
    .ok { st with fat := setEntry st.fat cluster entry, fat2 := setEntry st.fat2 cluster entry }
  else .error .outOfBounds

/-- The link to a cluster of the directory: the entry of the cluster before it, or the start in
the directory's own entry.
mirrors fat32.cc:1137-1145 and 1011-1020 -/
def relink (v : Volume) (st : St) (prevCluster cluster : Nat) : Except Err St :=
  if prevCluster = 0 then .ok { st with dirent.start := cluster }
  else putFat v st prevCluster cluster

/-- mirrors fat32.cc:1114-1148 -/
def transactCluster (v : Volume) (st : St) (prevCluster cluster : Nat) : Except Err (Nat × St) := do
  let (backup, st) ← allocateNear v st cluster
  if backup = 0 then return (0, st)
  else
    let destination ← offsetofCluster v backup
    let source ← offsetofCluster v cluster
    if v.inData destination v.blockSize ∧ v.inData source v.blockSize then
      let st := { st with dev := poke st.dev destination (peek st.dev source v.blockSize) }
      let entry ← fatAt v st cluster
      let st ← putFat v st backup entry
      let st ← relink v st prevCluster backup
      return (backup, st)
    else .error .outOfBounds

/-- `ins_point[i] = lfn.fragments[i]` for `count` entries. -/
def copyFragments (v : Volume) (st : St) (lfn : FullLfn) (insPoint : Option Nat) (count : Nat) :
    Except Err St :=
  match insPoint with
  | none => .error .outOfBounds
  | some ins =>
    if v.inData ins (32 * count) then
      .ok { st with dev := poke st.dev ins (peek lfn.fragments 0 (32 * count)) }
    else .error .outOfBounds

/-- The search for free entries.
mirrors fat32.cc:934-979 -/
def findFree (v : Volume) (st : St) (count : Nat) : Except Err (InsertSt × St × Nat) := do
  let (_, s, st, extendCluster) ← iterateDir v (insertCallback count) true (turns v) st
    st.dirent.start 0 ⟨none, 0, 0, 0, 0, 0, 0⟩
  return (s, st, extendCluster)

/-- The new entries are in a cluster that was appended.
mirrors fat32.cc:986-997 -/
def writeExtended (v : Volume) (st : St) (lfn : FullLfn) (s : InsertSt) (extendCluster : Nat) :
    Except Err St := do
  let st ← copyFragments v st lfn s.insPoint (lfn.lfnEntryCount + 1)
  let entry ← fatAt v st extendCluster
  if entry = 1 then
    let st ← putFat v st extendCluster 0x0FFFFFF8
    relink v st s.prevCluster s.resultCluster
  else .error .assertion

/-- A copy of the cluster stands in for it while it is written.
mirrors fat32.cc:998-1027 -/
def writeTransacted (v : Volume) (st : St) (lfn : FullLfn) (s : InsertSt) : Except Err St := do
  let (backup, st) ← transactCluster v st s.prevCluster s.resultCluster
  let st ← copyFragments v st lfn s.insPoint (lfn.lfnEntryCount + 1)
  let st ← relink v st s.prevCluster s.resultCluster
  if backup = 0 then .error .assertion else putFat v st backup 0

def writeEntries (v : Volume) (st : St) (lfn : FullLfn) (s : InsertSt) (extendCluster : Nat) :
    Except Err St :=
  if extendCluster ≠ 0 then writeExtended v st lfn s extendCluster else writeTransacted v st lfn s

/-- The entry that was created, and the state.
mirrors fat32.cc:931-1030 -/
def direntCreate (v : Volume) (st : St) (lfn : FullLfn) : Except Err (Nat × St) := do
  let (s, st, extendCluster) ← findFree v st (lfn.lfnEntryCount + 1)
  let lfn := generateUniqueShortname lfn s.insIndex
  let st ← writeEntries v st lfn s extendCluster
  return (s.insPoint.getD 0 + 32 * lfn.lfnEntryCount, st)

/-- The date, the time and the centiseconds of a new file, as `date_encode` makes them. -/
structure Stamp where
  date : Nat
  time : Nat
  centisec : UInt8

/-- The attributes and dates of a new short entry.
mirrors fat32.cc:878-893 -/
def stampNew (m : Buf) (sfn : Nat) (now : Stamp) (writable : Bool) : Buf :=
  let m := poke m (sfn + 13) [now.centisec]
  let m := poke m (sfn + 14) (word now.time)
  let m := poke m (sfn + 16) (word now.date)
  let m := poke m (sfn + 18) (word now.date)
  let m := poke m (sfn + 22) (word now.time)
  let m := poke m (sfn + 24) (word now.date)
  poke m (sfn + 11) [if writable then 0x20 else 0x20 ||| 0x01]

/-- `create_dirent` for the part of the path behind its last slash.
mirrors fat32.cc:872-898 -/
def createDirent (v : Volume) (st : St) (now : Stamp) (writable : Bool) (text : Buf)
    (nameSt nameLen : Nat) : Except Err (Nat × St) := do
  let lfn ← direntsFromName text nameSt nameLen
  direntCreate v st
    { lfn with fragments := stampNew lfn.fragments (32 * lfn.lfnEntryCount) now writable }

end Dgos.L3.Fat32
