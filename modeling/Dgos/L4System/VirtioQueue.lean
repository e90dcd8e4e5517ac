import Dgos.Core.Chain
import Dgos.Core.IndexRing
import Dgos.Core.Lts

/-!
# The virtio queue (kernel/device/virtio-base/virtio-base.cc)

A queue has a table of descriptors, a ring in which the driver posts the heads of chains of
descriptors, and a ring in which the device hands them back. Free descriptors are linked by
their `next` field, the descriptors of a chain by the same field and a flag. `recycle_used` puts
whole chains back on the free list and tells the completion objects. The indices of the rings
have 16 bits; a slot is an index cut by the mask of the queue size.

A call is one step, under `queue_lock` but for the loop at the end of `recycle_used` that invokes
the completion objects (virtio-base.cc:701-706). That loop reads `finished_completions`, which only
`recycle_used` writes; two calls of it are taken not to overlap. `enqueue_avail` makes an object
expect one result (`set_expect`): one that is given several chains is told of each, and calls back
for the first. The device is modelled by its own steps. It takes heads from the ring of the driver
in order and completes any head it has taken, once. A driver writes only descriptors it has
allocated and has not posted, and posts descriptors that are linked in the order in which it
passes them.

`filling` are the descriptors drivers have, `flight` the posted chains that are not recycled,
`posts` all chains that were ever posted, `delivered` what completion objects were told, and
`completed` what the device has completed.
-/
namespace Dgos.L4.VirtioQueue

open Function

/-! ## State -/

/-- mirrors virtio-base.h:48-66 -/
structure Desc where
  addr : Nat
  len : Nat
  /-- `flags.bits.next` -/
  chained : Bool
  /-- `flags.bits.write` -/
  write : Bool
  next : Nat
  deriving DecidableEq, Repr

/-- A chain as it was posted, with its number and its completion object. -/
structure Post where
  ticket : Nat
  ids : List Nat
  iocp : Nat
  deriving DecidableEq, Repr

/-- A completion object is told a length, for a chain. -/
structure Delivery where
  post : Option Post
  iocp : Option Nat
  len : Nat

structure St where
  descTab : Nat → Desc
  descFirstFree : Int
  descFreeCount : Nat
  completions : Nat → Option Nat
  pendingCompletions : List Delivery
  availRing : Nat → Nat
  availIdx : Nat
  usedRing : Nat → Nat × Nat
  usedIdx : Nat
  usedTail : Nat
  /-- how far the device has read the ring of the driver -/
  devTail : Nat
  /-- the heads the device has taken -/
  working : List Nat
  filling : List Nat
  flight : List Post
  posts : List Post
  completed : List (Option Post × Nat)
  delivered : List Delivery

/-- The indices have 16 bits. -/
def idxMod : Nat := 2 ^ 16

/-! ## The code -/

/-- The loop of `init` that links the descriptors; `i` counts down.
mirrors virtio-base.cc:404-407 -/
def initLoop : Nat → (Nat → Desc) × Int → (Nat → Desc) × Int
  | 0, r => r
  | i + 1, (tab, first) =>
    initLoop i (update tab i { tab i with next := (first % idxMod).toNat }, i)

/-- The queue as `init` leaves it, of `2 ^ k` descriptors; the rings may be at any index. -/
structure Init (k : Nat) (s : St) : Prop where
  size : k ≤ 15
  tab : ∃ tab, (s.descTab, s.descFirstFree) = initLoop (2 ^ k) (tab, -1)
  count : s.descFreeCount = 2 ^ k
  pending : s.pendingCompletions = []
  avail : s.availIdx < idxMod ∧ s.devTail = s.availIdx
  used : s.usedIdx < idxMod ∧ s.usedTail = s.usedIdx
  working : s.working = []
  filling : s.filling = []
  flight : s.flight = []
  posts : s.posts = []
  completed : s.completed = []
  delivered : s.delivered = []

/-- The descriptor that the free list begins with is taken off and cleared.
mirrors virtio-base.cc:476-482 -/
def takeFree (s : St) (write : Bool) : St :=
  let id := s.descFirstFree.toNat
  { s with
    descTab := update s.descTab id ⟨0, 0, false, write, idxMod - 1⟩
    descFirstFree := (s.descTab id).next
    filling := id :: s.filling }

/-- mirrors virtio-base.cc:467-490 -/
def allocDesc (s : St) (devWritable : Bool) : St :=
  if s.descFreeCount = 0 then s
  else takeFree { s with descFreeCount := s.descFreeCount - 1 } devWritable

/-- mirrors virtio-base.cc:503-511 -/
def allocLoop : Nat → St → St
  | 0, s => s
  | count + 1, s => allocLoop count (takeFree s false)

/-- A wait that times out changes nothing. The assertion refuses a count of 0.
mirrors virtio-base.cc:492-514 -/
def allocMultiple (s : St) (count : Nat) : Option St :=
  if count = 0 then none
  else if s.descFreeCount < count then some s
  else some (allocLoop count { s with descFreeCount := s.descFreeCount - count })

/-- What the loop of `enqueue_avail` changes. -/
structure Enq where
  skip : Bool
  chainStart : Option Nat
  completions : Nat → Option Nat
  availRing : Nat → Nat
  availHead : Nat

/-- One round of the loop of `enqueue_avail`.
mirrors virtio-base.cc:533-549 -/
def enqueueOne (size : Nat) (tab : Nat → Desc) (iocp : Nat) (q : Enq) (id : Nat) : Enq :=
  let q := if q.skip then q else
    { q with completions := update q.completions id iocp, chainStart := some id }
  let skip := (tab id).chained
  match skip, q.chainStart with
  | false, some start =>
    { q with
      skip := false
      availRing := update q.availRing (q.availHead % size) start
      availHead := q.availHead + 1 }
  | skip, _ => { q with skip := skip }

/-- The chains of the descriptors that are passed; descriptors behind the end of the last chain
are not posted. -/
def chainsOf (tab : Nat → Desc) : List Nat → List Nat → List (List Nat)
  | _, [] => []
  | cur, id :: descs =>
    if (tab id).chained then chainsOf tab (cur ++ [id]) descs
    else (cur ++ [id]) :: chainsOf tab [] descs

/-- The records of new chains. -/
def newPosts (iocp : Nat) : Nat → List (List Nat) → List Post
  | _, [] => []
  | ticket, ids :: chains => ⟨ticket, ids, iocp⟩ :: newPosts iocp (ticket + 1) chains

/-- mirrors virtio-base.cc:523-557 -/
def enqueueAvail (size : Nat) (s : St) (descs : List Nat) (iocp : Nat) : St :=
  let q := descs.foldl (enqueueOne size s.descTab iocp)
    ⟨false, none, s.completions, s.availRing, s.availIdx⟩
  let chains := chainsOf s.descTab [] descs
  let posts := newPosts iocp s.posts.length chains
  { s with
    completions := q.completions
    availRing := q.availRing
    availIdx := q.availHead % idxMod
    filling := s.filling.filter (· ∉ chains.flatten)
    flight := s.flight ++ posts
    posts := s.posts ++ posts }

/-- The loop that follows a chain to its end, and the number of its descriptors.
mirrors virtio-base.cc:677-681 -/
def chainEnd (tab : Nat → Desc) : Nat → Nat → Nat → Option (Nat × Nat)
  | 0, _, _ => none
  | fuel + 1, id, freedCount =>
    if (tab id).chained then chainEnd tab fuel (tab id).next (freedCount + 1)
    else some (id, freedCount)

/-- The posted chain with a head. -/
def St.postOf (s : St) (id : Nat) : Option Post := s.flight.find? (·.ids.head? = some id)

/-- One round of the loop of `recycle_used`.
mirrors virtio-base.cc:668-691 -/
def recycleOne (size : Nat) (s : St) (tail : Nat) : Option St := do
  let used := s.usedRing (tail % size)
  let id := used.1 % idxMod
  let (last, freedCount) ← chainEnd s.descTab size id 1
  return { s with
    descTab := update s.descTab last
      { s.descTab last with next := (s.descFirstFree % idxMod).toNat }
    descFirstFree := id
    descFreeCount := s.descFreeCount + freedCount
    completions := update s.completions id none
    pendingCompletions := s.pendingCompletions ++ [⟨s.postOf id, s.completions id, used.2⟩]
    flight := s.flight.eraseP (·.ids.head? = some id) }

/-- mirrors virtio-base.cc:667-692 -/
def recycleLoop (size doneIdx : Nat) : Nat → St → Nat → Option (St × Nat)
  | 0, _, _ => none
  | fuel + 1, s, tail => do
    let s ← recycleOne size s tail
    if (tail + 1) % idxMod ≠ doneIdx then recycleLoop size doneIdx fuel s (tail + 1)
    else return (s, tail + 1)

/-- mirrors virtio-base.cc:652-709 -/
def recycleUsed (size : Nat) (s : St) : Option St :=
  if s.usedIdx = s.usedTail then some s
  else do
    let (s, tail) ← recycleLoop size s.usedIdx idxMod s s.usedTail
    return { s with
      usedTail := tail % idxMod
      delivered := s.delivered ++ s.pendingCompletions
      pendingCompletions := [] }

/-! ## The device -/

/-- The next head is taken from the ring of the driver. -/
def deviceTake (size : Nat) (s : St) : Option St :=
  if s.devTail = s.availIdx then none
  else some { s with
    working := s.working ++ [s.availRing (s.devTail % size)]
    devTail := (s.devTail + 1) % idxMod }

/-- A head that was taken is handed back. -/
def deviceComplete (size : Nat) (s : St) (id len : Nat) : Option St :=
  if id ∈ s.working then
    some { s with
      working := s.working.erase id
      usedRing := update s.usedRing (s.usedIdx % size) (id, len)
      usedIdx := (s.usedIdx + 1) % idxMod
      completed := s.completed ++ [(s.postOf id, len)] }
  else none

/-! ## Steps -/

/-- The links of descriptors follow the order in which they are passed. -/
def Follows (tab : Nat → Desc) : List Nat → Prop
  | a :: b :: descs => ((tab a).chained = true → (tab a).next = b) ∧ Follows tab (b :: descs)
  | _ => True

instance decidableFollows (tab : Nat → Desc) : (descs : List Nat) → Decidable (Follows tab descs)
  | [] => isTrue trivial
  | [_] => isTrue trivial
  | _ :: b :: descs =>
    have := decidableFollows tab (b :: descs)
    inferInstanceAs (Decidable (_ ∧ _))

inductive Act where
  | allocDesc (devWritable : Bool)
  | allocMultiple (count : Nat)
  /-- a driver writes a descriptor it has -/
  | fill (id : Nat) (desc : Desc)
  | enqueueAvail (descs : List Nat) (iocp : Nat)
  | recycleUsed
  | take
  | complete (id len : Nat)

def step (size : Nat) (s : St) : Act → Option St
  | .allocDesc devWritable => some (allocDesc s devWritable)
  | .allocMultiple count => allocMultiple s count
  | .fill id desc =>
    if id ∈ s.filling ∧ desc.next < idxMod then
      some { s with descTab := update s.descTab id desc }
    else none
  | .enqueueAvail descs iocp =>
    if descs.Nodup ∧ (∀ id ∈ descs, id ∈ s.filling) ∧ Follows s.descTab descs then
      some (enqueueAvail size s descs iocp)
    else none
  | .recycleUsed => recycleUsed size s
  | .take => deviceTake size s
  | .complete id len => deviceComplete size s id len

def lts (k : Nat) : LTS St Act where
  init := Init k
  step s a s' := step (2 ^ k) s a = some s'

/-! ## What the queue is for -/

/-- The descriptor a link stands for. -/
def ptr (size : Nat) (next : Int) : Option Nat :=
  if 0 ≤ next ∧ next < size then some next.toNat else none

/-- The links of the free list. -/
def link (size : Nat) (tab : Nat → Desc) (id : Nat) : Option Nat := ptr size (tab id).next

structure Good (size : Nat) (s : St) : Prop where
  /-- the free list has as many descriptors as are counted, and every descriptor is in one place -/
  places : ∃ free, Chain (link size s.descTab) (ptr size s.descFirstFree) free ∧
    free.length = s.descFreeCount ∧
    (free ++ s.filling ++ s.flight.flatMap Post.ids).Perm (List.range size)
  /-- every chain that was posted is in flight or has been delivered, once -/
  once : s.posts.Nodup ∧
    (s.flight.map some ++ s.delivered.map Delivery.post).Perm (s.posts.map some)
  /-- to the completion object it was posted with -/
  object : ∀ d ∈ s.delivered, ∀ post, d.post = some post → d.iocp = some post.iocp
  /-- what the device has completed is delivered in order, with its length -/
  order : (s.delivered.map fun d => (d.post, d.len)) <+: s.completed

end Dgos.L4.VirtioQueue
