import Dgos.Core.Outcome
import Dgos.L3Files.Fat

/-!
# Reading a file in the boot loader (boot/fs/fat32.cc, boot/fs.cc)

The first `fat32_boot_pread` on a handle walks the cluster chain and caches it. Each call cuts
the request into pieces of one sector, `disk_io_plan_t::add` joins pieces that are whole
sectors with consecutive addresses into runs, and the runs are then read: runs of whole
sectors directly to the destination, other pieces through a buffer.

A disk has `sectors` sectors; `disk_read_lba` reads sectors that are on the disk and fails for
others. Sectors of the FAT are seen as 32-bit words, sectors of the data area as bytes.
Memory allocation succeeds. An access outside of an array is `Err.outOfBounds`.

Sector addresses are 32-bit numbers in the plan, and for the first sector of a file a signed
one; the number of runs and the capacity of the plan are 16-bit numbers.
-/
namespace Dgos.L3.BootFat32

inductive Err
  | outOfBounds
  | fuel
  deriving DecidableEq, Repr

/-- The BPB data and the disk. -/
structure Volume where
  log2SectorSz : Nat
  log2SecPerCluster : Nat
  firstFatLba : Nat
  clusterBeginLba : Nat
  sectors : Nat
  fat : Nat → Nat
  sector_ge : 9 ≤ log2SectorSz
  sector_le : log2SectorSz ≤ 12
  cluster_le : log2SecPerCluster ≤ 7
  fat_pos : 0 < firstFatLba
  sectors_lt : sectors < 2 ^ 63

/-- The bytes of the sectors. -/
abbrev Data := Nat → Nat → UInt8

namespace Volume

variable (v : Volume)

def sectorSz : Nat := 2 ^ v.log2SectorSz
def secPerCluster : Nat := 2 ^ v.log2SecPerCluster

/-- The bytes of a cluster. -/
def blockSize : Nat := v.sectorSz * v.secPerCluster

/-- The first sector of a cluster. -/
def lbaOf (cluster : Nat) : Nat := v.clusterBeginLba + cluster * v.secPerCluster

/-- The FAT entries in the sector `lba`, which is one of the FAT. -/
def fatSector (lba j : Nat) : Nat :=
  v.fat ((lba - v.firstFatLba) * 2 ^ (v.log2SectorSz - 2) + j)

end Volume

/-- `disk_read_lba` succeeds. -/
def diskRead (v : Volume) (lba count : Nat) : Bool := lba + count ≤ v.sectors

/-! ## The cluster chain -/

/-- `fat_buffer` and `fat_buffer_lba`. -/
structure FatBuf where
  lba : Nat
  words : Nat → Nat

/-- mirrors fat32.cc:72-75 -/
def isEofCluster (cluster : Nat) : Bool := cluster < 2 ∨ 0x0FFFFFF8 ≤ cluster

/-- `lba_from_cluster`: a 32-bit number.
mirrors fat32.cc:66-70 -/
def lbaFromCluster (v : Volume) (cluster : Nat) : Nat :=
  (v.clusterBeginLba + cluster <<< v.log2SecPerCluster % 2 ^ 32) % 2 ^ 32

/-- `read_fat`: success, and the new buffer. A buffer that could not be read is marked with an
impossible address.
mirrors fat32.cc:140-146 -/
def readFat (v : Volume) (b : FatBuf) (lba : Nat) : Bool × FatBuf :=
  if diskRead v lba 1 then (true, ⟨lba % 2 ^ 32, v.fatSector lba⟩)
  else (false, { b with lba := 0xFFFFFFFF })

/-- The part of `next_cluster` that brings the sector with the entry into the buffer.
mirrors fat32.cc:158-180 -/
def fillFatBuf (v : Volume) (b : FatBuf) (cluster : Nat) : Bool × FatBuf :=
  let lba := v.firstFatLba + cluster >>> (v.log2SectorSz - 2)
  if b.lba ≠ lba then readFat v b lba else (true, b)

/-- `next_cluster`: success, the next cluster (0 at the end) and the buffer.
mirrors fat32.cc:155-189 -/
def nextCluster (v : Volume) (b : FatBuf) (cluster : Nat) : Bool × Nat × FatBuf :=
  match fillFatBuf v b cluster with
  | (false, b) => (false, 0xFFFFFFFF, b)
  | (true, b) =>
    let next := b.words (cluster &&& (1 <<< (v.log2SectorSz - 2) - 1)) &&& 0x0FFFFFFF
    (true, if isEofCluster next then 0 else next, b)

/-- Either loop over the chain: success, the clusters met and the buffer.
mirrors fat32.cc:97-101 and 119-124 -/
def walkChain (v : Volume) : Nat → FatBuf → Nat → Except Err (Bool × List Nat × FatBuf)
  | 0, _, _ => .error .fuel
  | fuel + 1, b, walk =>
    if isEofCluster walk then .ok (true, [], b)
    else match nextCluster v b walk with
      | (false, _, b) => .ok (false, [walk], b)
      | (true, next, b) =>
        (walkChain v fuel b next).map fun r => (r.1, walk :: r.2.1, r.2.2)

/-- A bound for the length of a chain. -/
def maxChain : Nat := 2 ^ 28

/-- The handle's cached cluster list, and the FAT buffer. -/
structure St where
  clusters : Option (List Nat)
  buf : FatBuf

/-- The read of the first sector, with which `fat32_sector_iterator_begin` ends. The address is
an `int32_t` that is passed on as `uint64_t`.
mirrors fat32.cc:126-137 -/
def readFirst (v : Volume) (cluster : Nat) : Int :=
  if isEofCluster cluster then 0
  else if diskRead v (Fat.signExtend (lbaFromCluster v cluster)) 1 then 1 else -1

/-- `fat32_sector_iterator_begin`: the return value and the new state. The second walk stores
into an array of the size the first walk counted.
mirrors fat32.cc:82-138 -/
def sectorIteratorBegin (v : Volume) (st : St) (cluster : Nat) : Except Err (Int × St) := do
  match ← walkChain v (maxChain + 1) st.buf cluster with
  | (false, _, b) => return (-1, { st with buf := b })
  | (true, counted, b) =>
    let (ok, clusters, b) ← walkChain v (maxChain + 1) b cluster
    if counted.length < clusters.length then .error .outOfBounds
    else return (if ok then readFirst v cluster else -1, ⟨some clusters, b⟩)

/-! ## The plan -/

/-- `disk_vec_t`.
mirrors fs.h:23-38 -/
structure Vec where
  lba : Nat
  count : Nat
  sectorOfs : Nat
  byteCount : Nat

/-- `disk_io_plan_t`: the entries, the newest first; `capacity`; and how many entries the array
really has room for. -/
structure Plan where
  vec : List Vec
  capacity : Nat
  room : Nat

def Plan.empty : Plan := ⟨[], 0, 0⟩

/-- The condition under which a piece is joined to the previous entry.
mirrors fs.cc:64-69 -/
def coalesces (log2SectorSize : Nat) (prev : Vec) (count lba sectorOfs byteCount : Nat) : Bool :=
  prev.lba + prev.count = lba ∧ prev.sectorOfs = 0 ∧ sectorOfs = 0 ∧
    prev.byteCount = 2 ^ log2SectorSize ∧ byteCount = 2 ^ log2SectorSize ∧
    prev.count < 0xFFFFFFFF - count

/-- The new capacity is computed as a `size_t` and stored in 16 bits.
mirrors fs.cc:78-86 -/
def Plan.reserve (p : Plan) : Plan :=
  if p.capacity < p.vec.length + 1 then
    let newCapacity := if 16 ≤ p.capacity then p.capacity * 2 else 16
    { p with capacity := newCapacity % 2 ^ 16, room := newCapacity }
  else p

/-- mirrors fs.cc:88-95 -/
def Plan.push (p : Plan) (item : Vec) : Except Err Plan :=
  if p.reserve.room ≤ p.vec.length then .error .outOfBounds
  else .ok { p.reserve with vec := item :: p.vec }

/-- `disk_io_plan_t::add` of one sector.
mirrors fs.cc:54-96 -/
def Plan.add (log2SectorSize : Nat) (p : Plan) (lba sectorOfs byteCount : Nat) : Except Err Plan :=
  match p.vec with
  | prev :: rest =>
    if coalesces log2SectorSize prev p.vec.length lba sectorOfs byteCount then
      .ok { p with vec := { prev with count := prev.count + 1 } :: rest }
    else p.push ⟨lba, 1, sectorOfs, byteCount⟩
  | [] => p.push ⟨lba, 1, sectorOfs, byteCount⟩

/-! ## The request -/

/-- One turn of the loop over the request: where the piece is in the file, the address of its
sector, its place in the sector and its length. -/
structure Piece where
  lba : Nat
  ofs : Nat
  len : Nat

/-- mirrors fat32.cc:822-840 -/
def pieceAt (v : Volume) (clusters : List Nat) (ofs bytes : Nat) : Except Err Piece :=
  let sectorOffset := ofs >>> v.log2SectorSz % 2 ^ 32
  let byteOffset := (ofs &&& (v.sectorSz - 1)) % 2 ^ 16
  let sectorRead := (v.sectorSz - byteOffset) % 2 ^ 16
  let sectorRead := if bytes < sectorRead then bytes % 2 ^ 16 else sectorRead
  let clusterOfs := sectorOffset >>> v.log2SecPerCluster
  let clusterIdx := sectorOffset &&& (v.secPerCluster - 1)
  match clusters[clusterOfs]? with
  | none => .error .outOfBounds
  | some c => .ok ⟨(lbaFromCluster v c + clusterIdx) % 2 ^ 32, byteOffset, sectorRead⟩

/-- The loop that makes the plan. A piece has at least one byte, so the number of bytes bounds
the number of turns.
mirrors fat32.cc:821-845 -/
def planLoop (v : Volume) (clusters : List Nat) : Nat → Nat → Nat → Plan → Except Err Plan
  | 0, _, bytes, p => if bytes = 0 then .ok p else .error .fuel
  | fuel + 1, ofs, bytes, p =>
    if bytes = 0 then .ok p
    else do
      let piece ← pieceAt v clusters ofs bytes
      let p ← p.add v.log2SectorSz piece.lba piece.ofs piece.len
      planLoop v clusters fuel (ofs + piece.len) (bytes - piece.len) p

/-- An `int` that wraps. -/
def int32 (n : Int) : Int := (n + 2 ^ 31) % 2 ^ 32 - 2 ^ 31

/-- A sector, and sectors one behind the other. -/
def sectorBuf (v : Volume) (data : Data) (lba : Nat) : Buf := fun i =>
  data (lba + i / v.sectorSz) (i % v.sectorSz)

/-- The loop that carries out the plan: the return value and the memory at `buf`; `dest` is the
offset of `plan.dest`.
mirrors fat32.cc:847-868 -/
def replay (v : Volume) (data : Data) : List Vec → Nat → Int → Buf → Int × Buf
  | [], _, totalRead, m => (totalRead, m)
  | item :: items, dest, totalRead, m =>
    let xfer := item.byteCount * item.count % 2 ^ 32
    if item.sectorOfs = 0 ∧ item.byteCount = v.sectorSz then
      if diskRead v item.lba item.count then
        replay v data items (dest + xfer) (int32 (totalRead + xfer))
          (poke m dest (peek (sectorBuf v data item.lba) 0 (item.count * v.sectorSz)))
      else (0, m)
    else if diskRead v item.lba 1 then
      replay v data items (dest + xfer) (int32 (totalRead + xfer))
        (poke m dest (peek (sectorBuf v data item.lba) item.sectorOfs item.byteCount))
    else (0, m)

/-- The part of `fat32_boot_pread` behind the cluster list.
mirrors fat32.cc:819-868 -/
def transfer (v : Volume) (data : Data) (clusters : List Nat) (m : Buf) (bytes ofs : Nat) :
    Except Err (Int × Buf) := do
  let plan ← planLoop v clusters bytes ofs bytes Plan.empty
  return replay v data plan.vec.reverse 0 0 m

/-- `fat32_boot_pread` on an open handle: the return value, the memory at `buf`, and the new
state. `cluster` is the start cluster that `fat32_boot_open` stored.
mirrors fat32.cc:802-869 -/
def pread (v : Volume) (data : Data) (cluster : Nat) (st : St) (m : Buf) (bytes ofs : Nat) :
    Except Err (Int × Buf × St) :=
  match st.clusters with
  | some clusters => (transfer v data clusters m bytes ofs).map fun r => (r.1, r.2, st)
  | none => do
    let (status, st) ← sectorIteratorBegin v st cluster
    if status < 0 then return (-1, m, st)
    else
      let r ← transfer v data (st.clusters.getD []) m bytes ofs
      return (r.1, r.2, st)

end Dgos.L3.BootFat32
