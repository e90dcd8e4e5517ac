import Dgos.Core.Bits
import Dgos.Core.Tiling

/-!
# The bootloader heap (boot/malloc.cc)

Blocks lie end to end between `heap_st` and a sentinel of size 0 at `heap_en`. Each has a
16-byte header with its size, the negated size, its own address and a FREE or USED
signature. `malloc_aligned` walks the heap once around from the rover `first_free`, merges
neighbouring FREE blocks as it meets them, and splits the first block that is large enough.

`w` is the width of `size_t` and of pointers (32 in the BIOS build, 64 under EFI); the
header fields are 32 bits in both. The model keeps a header for every address. Loops take
fuel, `Err.fuel` is the loop that did not end. The patterns of the debug builds are left out.
-/
namespace Dgos.L2.BootMalloc

open Blk

/-! ## Block headers -/

/-- `blk_hdr_t::FREE`. -/
def freeSig : Nat := 0xFEEEB10C

/-- `blk_hdr_t::USED`. -/
def usedSig : Nat := 0xA10CA1ED

/-- mirrors malloc.cc:30-43 -/
structure BlkHdr where
  size : Nat
  sig : Nat
  negSize : Nat
  self : Nat

namespace BlkHdr

/-- mirrors malloc.cc:45-49 -/
def invalid (b : BlkHdr) (this : Nat) : Bool :=
  (b.size + b.negSize) % 2 ^ 32 ≠ 0 || b.self ≠ this % 2 ^ 32

/-- mirrors malloc.cc:51-56 -/
def makeInvalid (b : BlkHdr) : BlkHdr := { b with self := 0, size := 0xBAD11111, negSize := 0 }

/-- mirrors malloc.cc:58-62 -/
def makeValid (b : BlkHdr) (this : Nat) : BlkHdr := { b with self := this % 2 ^ 32 }

/-- mirrors malloc.cc:64-68 -/
def setSize (b : BlkHdr) (newSize : Nat) : BlkHdr :=
  { b with size := newSize % 2 ^ 32, negSize := (2 ^ 32 - newSize % 2 ^ 32) % 2 ^ 32 }

/-- The three calls that write a new FREE header. -/
def makeFree (b : BlkHdr) (this newSize : Nat) : BlkHdr :=
  { (b.setSize newSize).makeValid this with sig := freeSig }

end BlkHdr

/-! ## The heap -/

/-- mirrors malloc.cc:73-75, with the headers in memory -/
structure Heap where
  heapFree : Nat
  heapSt : Nat
  heapEn : Nat
  firstFree : Nat
  hdr : Nat → BlkHdr

inductive Err where
  /-- `malloc_panic` or `PANIC` -/
  | panic
  | fuel
  deriving DecidableEq, Repr

def Heap.set (h : Heap) (a : Nat) (b : BlkHdr) : Heap := { h with hdr := Function.update h.hdr a b }

/-- More than the number of blocks. -/
def Heap.fuel (h : Heap) : Nat := (h.heapEn - h.heapSt) / 16 + 2

/-- mirrors malloc.cc:77-97 -/
def mallocInit (w : Nat) (hdr : Nat → BlkHdr) (st en : Nat) : Heap :=
  let st := maskNeg w ((st + 15) % 2 ^ w) 16
  let en := (maskNeg w en 16 + 2 ^ w - 16) % 2 ^ w
  let hdr := Function.update hdr en
    { ((hdr en).setSize 0).makeValid en with sig := usedSig }
  let hdr := Function.update hdr st ((hdr st).makeFree st ((en + 2 ^ w - st) % 2 ^ w))
  { heapFree := (hdr st).size, heapSt := st, heapEn := en, firstFree := st, hdr := hdr }

/-- mirrors malloc.cc:99-102 -/
def nextBlk (w : Nat) (h : Heap) (blk : Nat) : Nat := (blk + (h.hdr blk).size) % 2 ^ w

/-- One pass of the loop of `malloc_coalesce`.
mirrors malloc.cc:114-124 -/
def absorb (w : Nat) (h : Heap) (blk next : Nat) : Heap :=
  let h := h.set blk ((h.hdr blk).setSize ((h.hdr blk).size + (h.hdr next).size))
  let h := h.set next (h.hdr next).makeInvalid
  { h with
    firstFree := if h.firstFree = next then blk else h.firstFree
    heapFree := (h.heapFree + 16) % 2 ^ w }

/-- mirrors malloc.cc:109-128 -/
def coalesce (w : Nat) : Nat → Heap → Nat → Nat → Option (Heap × Nat)
  | 0, _, _, _ => none
  | fuel + 1, h, blk, next =>
    if (h.hdr blk).sig = freeSig ∧ (h.hdr next).sig = freeSig then
      coalesce w fuel (absorb w h blk next) blk (nextBlk w (absorb w h blk next) blk)
    else some (h, next)

/-- mirrors malloc.cc:159-160 -/
def noteFree (h : Heap) (blk : Nat) : Heap :=
  if blk < h.firstFree ∨ (h.hdr h.firstFree).sig = usedSig then { h with firstFree := blk } else h

/-- The block is split so that the payload of the second part is aligned; returns that part.
mirrors malloc.cc:170-185 -/
def splitAligned (w : Nat) (h : Heap) (blk adj : Nat) : Heap × Nat :=
  if adj = 0 then (h, blk)
  else
    let alignedHdr := (blk + adj) % 2 ^ w
    let h := h.set alignedHdr
      ((h.hdr alignedHdr).makeFree alignedHdr (((h.hdr blk).size + 2 ^ w - adj) % 2 ^ w))
    let h := { h with firstFree := if alignedHdr < h.firstFree then alignedHdr else h.firstFree }
    (h.set blk ((h.hdr blk).setSize adj), alignedHdr)

/-- The front of the block becomes USED, the rest a FREE block of its own.
mirrors malloc.cc:187-202 -/
def carve (w : Nat) (h : Heap) (blk bytes : Nat) : Heap :=
  let remain := ((h.hdr blk).size + 2 ^ w - bytes) % 2 ^ w
  let next := (blk + bytes) % 2 ^ w
  let h := if remain = 0 then h else h.set next ((h.hdr next).makeFree next remain)
  h.set blk { (h.hdr blk).setSize bytes with sig := usedSig }

inductive Visit where
  | took (h : Heap) (p : Nat)
  | move (h : Heap) (blk : Nat)

/-- mirrors malloc.cc:215-220 -/
def advance (h : Heap) (blk next : Nat) : Visit :=
  .move h (if 0 < (h.hdr blk).size then next else h.heapSt)

/-- What the loop of `malloc_aligned` does with the block after merging.
mirrors malloc.cc:158-220 -/
def tryBlock (w bytes alignment : Nat) (h : Heap) (blk next : Nat) : Visit :=
  if (h.hdr blk).sig = freeSig then
    let h := noteFree h blk
    let adj := alignAdj w ((blk + 16) % 2 ^ w) alignment
    if (bytes + adj) % 2 ^ w ≤ (h.hdr blk).size then
      let (h, blk) := splitAligned w h blk adj
      .took (carve w h blk bytes) ((blk + 16) % 2 ^ w)
    else advance h blk next
  else advance h blk next

/-- One pass of the loop of `malloc_aligned`.
mirrors malloc.cc:151-220 -/
def visit (w bytes alignment : Nat) (h : Heap) (blk : Nat) : Except Err Visit :=
  if (h.hdr (nextBlk w h blk)).invalid (nextBlk w h blk) then .error .panic
  else
    match coalesce w h.fuel h blk (nextBlk w h blk) with
    | none => .error .fuel
    | some (h, next) => .ok (tryBlock w bytes alignment h blk next)

/-- mirrors malloc.cc:150-225 -/
def search (w bytes alignment start : Nat) : Nat → Heap → Nat → Except Err (Heap × Nat)
  | 0, _, _ => .error .fuel
  | fuel + 1, h, blk =>
    match visit w bytes alignment h blk with
    | .error e => .error e
    | .ok (.took h p) => .ok (h, p)
    | .ok (.move h blk) => if blk = start then .ok (h, 0) else search w bytes alignment start fuel h blk

/-- `bytes = ((bytes + 15) & -16) + sizeof(blk_hdr_t)`.
mirrors malloc.cc:145 -/
def roundBytes (w bytes : Nat) : Nat := (maskNeg w ((bytes + 15) % 2 ^ w) 16 + 16) % 2 ^ w

/-- mirrors malloc.cc:135-226 -/
def mallocAligned (w : Nat) (h : Heap) (bytes alignment : Nat) : Except Err (Heap × Nat) :=
  if bytes = 0 then .ok (h, 0)
  else if (h.hdr h.firstFree).invalid h.firstFree then .error .panic
  else search w (roundBytes w bytes) alignment h.firstFree h.fuel h h.firstFree

/-- mirrors malloc.cc:130-133 -/
def malloc (w : Nat) (h : Heap) (bytes : Nat) : Except Err (Heap × Nat) := mallocAligned w h bytes 16

/-- mirrors malloc.cc:343-346 -/
def release (h : Heap) (blk : Nat) : Heap :=
  { h.set blk { h.hdr blk with sig := freeSig } with
    firstFree := if blk < h.firstFree then blk else h.firstFree }

/-- mirrors malloc.cc:324-349 -/
def free (w : Nat) (h : Heap) (p : Nat) : Except Err Heap :=
  if p = 0 then .ok h
  else
    let blk := (p + 2 ^ w - 16) % 2 ^ w
    if (h.hdr blk).sig ≠ usedSig then .error .panic
    else if (h.hdr blk).invalid blk then .error .panic
    else .ok (release h blk)

/-- mirrors malloc.cc:377-408 -/
def validate (w : Nat) (h : Heap) : Nat → Nat → Bool
  | 0, _ => false
  | fuel + 1, blk =>
    if (h.hdr blk).invalid blk ∨ ((h.hdr blk).sig ≠ freeSig ∧ (h.hdr blk).sig ≠ usedSig) then false
    else if (h.hdr blk).size % 16 ≠ 0 then false
    else if blk < h.heapSt ∨ h.heapEn < blk then false
    else if blk = h.heapEn then (h.hdr blk).size = 0
    else validate w h fuel (nextBlk w h blk)

end Dgos.L2.BootMalloc
