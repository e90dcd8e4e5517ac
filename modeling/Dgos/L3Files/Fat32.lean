import Dgos.Core.Outcome
import Dgos.L3Files.Fat

/-!
# Reading and writing files (kernel/fs/fat32/fat32.cc)

`internal_rw` serves reads and writes. A handle remembers one position in the cluster chain of
its file: the offset of a block and its cluster. The loop goes on to the next cluster, or starts
again from the first one and walks along the chain; a write lets the walk append clusters.

The volume is mapped into memory. The FAT is an array of 32-bit entries and the data area an
array of bytes at offsets from the beginning of the partition; an access outside of them is
`Err.outOfBounds`. A `cluster_t` is given by its 32 bits. Directory entries are records of
their own. Mapped pages can be read and written back, and user buffers can be accessed.
-/
namespace Dgos.L3.Fat32

inductive Err
  | outOfBounds
  | assertion
  | fuel
  deriving DecidableEq, Repr

/-- The BPB data of a FAT32 volume with two FATs, and where its partition is. -/
structure Volume where
  sectorShift : Nat
  blockShift : Nat
  reservedSectors : Nat
  secPerFat : Nat
  partSt : Nat
  partLen : Nat
  /-- The clusters are numbered from 2. -/
  clusters : Nat
  sector_ge : 9 ≤ sectorShift
  sector_le : sectorShift ≤ 12
  block_le : blockShift ≤ 7
  reserved_lt : reservedSectors < 2 ^ 16
  fat_le : secPerFat * 2 ^ sectorShift ≤ 2 ^ 30
  fat_ge : 4 * (clusters + 2) ≤ secPerFat * 2 ^ sectorShift
  clusters_le : clusters ≤ 0x0FFFFFF5
  in_partition : reservedSectors + 2 * secPerFat + clusters * 2 ^ blockShift ≤ partLen

namespace Volume

variable (v : Volume)

def sectorSize : Nat := 2 ^ v.sectorShift

def blockSize : Nat := v.sectorSize <<< v.blockShift

/-- The number of entries of the FAT. -/
def fatEntries : Nat := v.secPerFat * v.sectorSize / 4

/-- The first byte of cluster 2. -/
def dataStart : Nat := (v.reservedSectors + 2 * v.secPerFat) * v.sectorSize

/-- mirrors fat32_decl.h:245-247 -/
def clusterBeginLba : Nat :=
  (v.reservedSectors + 2 * v.secPerFat + (2 ^ 64 - 2 * 2 ^ v.blockShift)) % 2 ^ 64

/-- The sector of cluster 0, as an `int32_t`.
mirrors fat32.cc:1392-1393 -/
def clusterOfs : Nat := v.clusterBeginLba % 2 ^ 32

/-- The bits of `end_cluster`.
mirrors fat32.cc:1412 -/
def endClusterBits : Nat :=
  ((v.partSt + v.partLen + (2 ^ 64 - Fat.signExtend v.clusterOfs)) % 2 ^ 64) >>> v.blockShift %
    2 ^ 32

/-- `end_cluster`, where a negative number does what 0 does. -/
def endCluster : Nat := if v.endClusterBits < 2 ^ 31 then v.endClusterBits else 0

/-- `n` bytes of the data area. -/
def inData (p n : Nat) : Bool :=
  v.dataStart ≤ p ∧ p + n ≤ v.dataStart + v.clusters * v.blockSize

end Volume

/-- mirrors fat32_decl.h:123-179 -/
structure Dirent where
  start : Nat
  size : Nat
  attr : Nat
  modifiedDate : Nat
  modifiedTime : Nat
  deriving DecidableEq, Repr

def attrDir : Nat := 16
def attrArch : Nat := 32

namespace Dirent

/-- mirrors fat32_decl.h:160-163 -/
def isDirectory (d : Dirent) : Bool := d.attr &&& attrDir ≠ 0

/-- mirrors fat32_decl.h:170-173 -/
def isWithinSize (d : Dirent) (ofs : Nat) : Bool := ofs < d.size ∨ d.isDirectory

end Dirent

/-- The mapped volume, the directory entry of the file and the handle. -/
structure St where
  fat : Nat → Nat
  fat2 : Nat → Nat
  dev : Buf
  dirent : Dirent
  cachedOffset : Nat
  cachedCluster : Nat
  dirty : Bool

/-! ## The FAT -/

/-- mirrors fat32.cc:545-549 -/
def isEof (cluster : Nat) : Bool :=
  cluster &&& 0x0FFFFFFF < 2 ∨ 0x0FFFFFF8 ≤ cluster &&& 0x0FFFFFFF

/-- mirrors fat32.cc:551-554 -/
def isFree (cluster : Nat) : Bool := cluster &&& 0x0FFFFFFF = 0

/-- `fat[cluster]` -/
def fatAt (v : Volume) (st : St) (cluster : Nat) : Except Err Nat :=
  if cluster < v.fatEntries then .ok (st.fat cluster) else .error .outOfBounds

/-- mirrors fat32.cc:251-257 -/
def offsetofCluster (v : Volume) (cluster : Nat) : Except Err Nat :=
  let cluster := Fat.signExtend cluster
  if 2 ≤ cluster then
    .ok ((Fat.signExtend (v.clusterOfs <<< v.sectorShift % 2 ^ 32) +
      cluster <<< (v.sectorShift + v.blockShift)) % 2 ^ 64)
  else .error .assertion

def setEntry (fat : Nat → Nat) (cluster entry : Nat) : Nat → Nat := fun c =>
  if c = cluster then entry else fat c

/-- The cluster is cleared and marked as used, in the first FAT only.
mirrors fat32.cc:587-591 -/
def takeCluster (v : Volume) (st : St) (cluster : Nat) : Except Err (Nat × St) := do
  let p ← offsetofCluster v cluster
  if v.inData p v.blockSize then
    return (cluster, { st with
      fat := setEntry st.fat cluster 1
      dev := poke st.dev p (List.replicate v.blockSize 0) })
  else .error .outOfBounds

/-- The loop of `allocate_near`; the first argument is `end_cluster - checked`.
mirrors fat32.cc:582-595 -/
def allocateLoop (v : Volume) (st : St) : Nat → Nat → Except Err (Nat × St)
  | 0, _ => .ok (0, st)
  | n + 1, candidate => do
    let candidate := if v.endCluster ≤ candidate ∨ candidate < 2 then 2 else candidate
    let entry ← fatAt v st candidate
    if isFree entry then takeCluster v st candidate else allocateLoop v st n (candidate + 1)

/-- mirrors fat32.cc:578-596 -/
def allocateNear (v : Volume) (st : St) (cluster : Nat) : Except Err (Nat × St) :=
  allocateLoop v st v.endCluster (cluster + 1)

/-! ## Walking along the chain -/

/-- A new cluster behind the cached one, and the cache moved there; `none` when the disk is full.
mirrors fat32.cc:757-774 -/
def appendCluster (v : Volume) (st : St) : Except Err (Option St) := do
  let (alloc, st) ← allocateNear v st st.cachedCluster
  if alloc = 0 then return none
  else
    return some { st with
      dirent.start := if st.dirent.start = 0 then alloc else st.dirent.start
      fat := setEntry st.fat st.cachedCluster alloc
      fat2 := setEntry st.fat2 st.cachedCluster alloc
      cachedCluster := alloc }

/-- One step along the chain.
mirrors fat32.cc:776-779 -/
def advance (v : Volume) (st : St) : Except Err St := do
  let next ← fatAt v st st.cachedCluster
  return { st with cachedOffset := st.cachedOffset + v.blockSize, cachedCluster := next }

/-- The loop of `walk_cluster_chain`. The flag says whether an entry of the FAT waits to be
written back.
mirrors fat32.cc:752-780 -/
def walkLoop (v : Volume) (append : Bool) (offset : Nat) :
    Nat → St → Nat → Bool → Except Err (St × Bool)
  | 0, _, _, _ => .error .fuel
  | fuel + 1, st, walked, pending =>
    if walked + v.blockSize ≤ offset then do
      let entry ← fatAt v st st.cachedCluster
      if isEof entry then
        if append then
          match ← appendCluster v st with
          | none => return (st, pending)
          | some st => walkLoop v append offset fuel (← advance v st) (walked + v.blockSize) true
        else return (st, pending)
      else walkLoop v append offset fuel (← advance v st) (walked + v.blockSize) pending
    else return (st, pending)

/-- The first cluster of an empty file.
mirrors fat32.cc:782-791 -/
def firstCluster (v : Volume) (append : Bool) (st : St) (pending : Bool) : Except Err (St × Bool) :=
  if append ∧ st.cachedCluster = 0 then do
    let (alloc, st) ← allocateNear v st 2047
    return ({ st with cachedCluster := alloc, cachedOffset := 0 }, true)
  else .ok (st, pending)

/-- `walk_cluster_chain`. The walk adds one block per turn, so `offset` bounds the turns.
mirrors fat32.cc:742-809 -/
def walkClusterChain (v : Volume) (st : St) (offset : Nat) (append : Bool) : Except Err St := do
  let (st, pending) ← walkLoop v append offset (offset + 1) st 0 false
  let (st, pending) ← firstCluster v append st pending
  if pending ∧ st.cachedOffset = 0 then
    return { st with dirent.start := st.cachedCluster }
  else return st

/-! ## Reading and writing -/

/-- The part of a turn of `internal_rw` that moves the cached position to `offset`: the new state
and `cached_end`.
mirrors fat32.cc:1234-1269 -/
def seek (v : Volume) (read : Bool) (st : St) (cachedEnd offset : Nat) : Except Err (St × Nat) := do
  if st.cachedCluster ≠ 0 ∧ st.dirent.isWithinSize offset ∧ cachedEnd ≤ offset ∧
      offset < cachedEnd + v.blockSize then
    let st ← advance v st
    return (st, st.cachedOffset + v.blockSize)
  else if st.cachedCluster = 0 ∨ offset < st.cachedOffset ∨ cachedEnd ≤ offset then
    let st ← walkClusterChain v
      { st with cachedCluster := st.dirent.start, cachedOffset := 0 } offset (!read)
    if st.cachedCluster ≠ 0 ∧ (st.dirent.isDirectory ∨ 0 < st.dirent.size ∨ !read) then
      return (st, st.cachedOffset + v.blockSize)
    else return (st, 0)
  else return (st, cachedEnd)

/-- Where the data at `offset` is, and how many bytes of it are in the cached cluster.
mirrors fat32.cc:1273-1286 -/
def target (v : Volume) (st : St) (cachedEnd offset size : Nat) : Except Err (Nat × Nat) := do
  let avail := if offset < cachedEnd then cachedEnd - offset else 0
  if v.blockSize < avail then .error .assertion
  else
    let avail := if size < avail then size else avail
    let clusterDataOfs ← offsetofCluster v st.cachedCluster
    let diskData := (clusterDataOfs + offset + (2 ^ 64 - st.cachedOffset)) % 2 ^ 64
    if avail = 0 ∨ v.inData diskData avail then return (diskData, avail)
    else .error .outOfBounds

/-- What a write does to the directory entry; `now` is the encoded date and time.
mirrors fat32.cc:1306-1316 -/
def touch (d : Dirent) (endOfs : Nat) (now : Nat × Nat) : Dirent :=
  { d with
    size := if d.size < endOfs then endOfs % 2 ^ 32 else d.size
    modifiedDate := now.1
    modifiedTime := now.2
    attr := d.attr ||| attrArch }

/-- The copy, to or from the buffer `io` at the offset `result`.
mirrors fat32.cc:1288-1320 -/
def copy (read : Bool) (now : Nat × Nat) (st : St) (io : Buf) (diskData avail offset result : Nat) :
    St × Buf :=
  if read then (st, poke io result (peek st.dev diskData avail))
  else
    ({ st with
      dev := poke st.dev diskData (peek io result avail)
      dirent := touch st.dirent (offset + avail) now
      dirty := true }, io)

/-- The loop of `internal_rw`: the return value, the buffer and the new state. Every turn but the
last one moves at least one byte, so the number of bytes bounds the turns.
mirrors fat32.cc:1222-1331 -/
def rwLoop (v : Volume) (read : Bool) (now : Nat × Nat) :
    Nat → St → Buf → Nat → Nat → Nat → Nat → Except Err (Nat × Buf × St)
  | 0, _, _, _, _, _, _ => .error .fuel
  | fuel + 1, st, io, cachedEnd, offset, size, result =>
    if size = 0 ∨ ¬ st.dirent.isWithinSize offset then .ok (result, io, st)
    else do
      let remain := st.dirent.size - offset
      let size := if remain < size then remain else size
      let (st, cachedEnd) ← seek v read st cachedEnd offset
      let (diskData, avail) ← target v st cachedEnd offset size
      let (st, io) := copy read now st io diskData avail offset result
      if avail = 0 then return (result, io, st)
      else rwLoop v read now fuel st io cachedEnd (offset + avail) (size - avail) (result + avail)

/-- mirrors fat32.cc:1207-1332 -/
def internalRw (v : Volume) (read : Bool) (now : Nat × Nat) (st : St) (io : Buf)
    (size offset : Nat) : Except Err (Nat × Buf × St) :=
  let cachedEnd := if st.cachedCluster ≠ 0 then st.cachedOffset + v.blockSize else 0
  rwLoop v read now (size + 1) st io cachedEnd offset size 0

end Dgos.L3.Fat32
