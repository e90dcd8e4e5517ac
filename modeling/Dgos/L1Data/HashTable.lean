import Dgos.Core.Probe

/-!
# The hash table `basic_hashtbl_t` (kernel/lib/hash_table.h)

Open addressing: an item lives at the first free slot at or after the slot its hash names. A
deleted item leaves a hole, a pointer of value 1 that probing walks over, unless the slot
behind it is null. `insert` grows the table when half of it is used, `del` rehashes it in
place when more than half of it are holes.

A slot is null, a hole or a pointer to an item; the key is a member of the item. The hash
function is arbitrary. Tables never have more than `2 ^ 30` slots, so the 32-bit counters and
slot numbers do not wrap: for `2 ^ 31` slots `1 << new_log2` is negative and the vector is
asked for more bytes than there are addresses (`vecResize`). The answer of the memory allocator
to the one allocation a call may make is an argument of the call. Reference counts of items
(`ref_hashtbl_t`) are not modelled.

Results:
* `Placed.set_item`, `Placed.set_hole`, `Placed.set_null`: what may be stored into a slot so
  that every item is still reached from the slot its key starts at.
* `find_eq_some_iff`: the search loop finds exactly the item with the key.
-/
namespace Dgos.L1.HashTable

open List Nat

inductive Err
  | assert
  deriving DecidableEq, Repr

/-- A pointer stored in the table: `nullptr`, `(T*)1` or an item. -/
inductive Slot (T : Type)
  | null
  | hole
  | item (p : T)
  deriving DecidableEq, Repr

open Slot

/-- The key member of an item, and `hash_32` of a key. -/
structure Cfg (T K : Type) where
  key : T → K
  hash32 : K → UInt32

/-- mirrors hash_table.h:19-47 -/
structure St (T : Type) where
  items : List (Slot T)
  used : Nat
  holes : Nat
  log2Capacity : Nat
  deriving Repr

variable {T K : Type} (c : Cfg T K)

def St.init : St T := ⟨[], 0, 0, 0⟩

/-- `items[i]` -/
def slot (items : List (Slot T)) (i : Nat) : Slot T := items.getD i .null

def Slot.isNull : Slot T → Bool
  | .null => true
  | _ => false

/-- `candidate <= (void*)1` -/
def Slot.isFree : Slot T → Bool
  | .item _ => false
  | _ => true

/-- Where the probes of `lookup` and `del` end: at null, and at an item with the key. -/
def stopsAt [DecidableEq K] (key : K) : Slot T → Bool
  | .null => true
  | .hole => false
  | .item p => c.key p = key

/-- `~(uint32_t(-1) << log2)` -/
def maskOf (log2 : Nat) : Nat := 2 ^ log2 - 1

/-- The probe loop of every operation: from slot `hash & mask` on, at most `e` slots, the first
one that `stop` accepts.
mirrors hash_table.h:93-104, 128-139, 155-167 and 181-211 -/
def probeTable (stop : Slot T → Bool) (items : List (Slot T)) (log2 e : Nat) (hash : UInt32) :
    Option Nat :=
  probe (fun i => (i + 1) &&& maskOf log2) (fun i => stop (slot items i)) e
    (hash.toNat &&& maskOf log2)

/-- `1 << new_log2` as an `int`, converted to `size_t`. -/
def newCapacity (newLog2 : Nat) : Nat :=
  if newLog2 = 31 then 2 ^ 64 - 2 ^ 31 else 2 ^ newLog2

/-- Does `new_tbl.resize(count, nullptr)` succeed, when `mem` is the answer of the allocator to
a request it could grant? The bytes are computed in 64 bits; no block is larger than half of
the 48-bit address space. -/
def vecResize (mem : Bool) (count : Nat) : Bool := mem && count * 8 % 2 ^ 64 ≤ 2 ^ 47

/-- One turn of the loop of `rehash`: the new table and the number of items in it.
mirrors hash_table.h:85-104 -/
def moveItem (oldLog2 newLog2 : Nat) (acc : List (Slot T) × Nat) : Slot T → List (Slot T) × Nat
  | .item p =>
    match probeTable Slot.isNull acc.1 newLog2 (1 <<< oldLog2) (c.hash32 (c.key p)) with
    | some i => (acc.1.set i (.item p), acc.2 + 1)
    | none => acc
  | _ => acc

/-- The new table of `rehash`.
mirrors hash_table.h:79-106 -/
def moveAll (s : St T) (newLog2 : Nat) : List (Slot T) × Nat :=
  let newTbl := (List.replicate (newCapacity newLog2) .null, 0)
  if s.used ≠ 0 then
    (List.range (1 <<< s.log2Capacity)).foldl
      (fun acc src => moveItem c s.log2Capacity newLog2 acc (slot s.items src)) newTbl
  else newTbl

/-- mirrors hash_table.h:72-114 -/
def rehash (s : St T) (newLog2 : Nat) (mem : Bool) : Bool × St T :=
  if vecResize mem (newCapacity newLog2) then
    let moved := moveAll c s newLog2
    (true, ⟨moved.1, moved.2, 0, newLog2⟩)
  else (false, s)

/-- `log2_capacity ? log2_capacity + 1 : 4` -/
def St.growLog2 (s : St T) : Nat := if s.log2Capacity ≠ 0 then s.log2Capacity + 1 else 4

/-- mirrors hash_table.h:57-60 -/
def grow (s : St T) (mem : Bool) : Bool × St T := rehash c s s.growLog2 mem

/-- The part of `insert` that makes room.
mirrors hash_table.h:120-123 -/
def makeRoom (s : St T) (mem : Bool) : Bool × St T :=
  if s.items.isEmpty ∨ (1 <<< s.log2Capacity) >>> 1 ≤ s.used then grow c s mem else (true, s)

/-- The rest of `insert`.
mirrors hash_table.h:125-143 -/
def store (s : St T) (p : T) : Except Err (Bool × St T) :=
  match probeTable Slot.isFree s.items s.log2Capacity (1 <<< s.log2Capacity)
      (c.hash32 (c.key p)) with
  | some i =>
    let holes := match slot s.items i with
      | .hole => s.holes - 1
      | _ => s.holes
    .ok (true, { s with items := s.items.set i (.item p), used := s.used + 1, holes := holes })
  | none => .error .assert

/-- mirrors hash_table.h:118-143 -/
def insert (s : St T) (p : T) (mem : Bool) : Except Err (Bool × St T) :=
  match makeRoom c s mem with
  | (false, s) => .ok (false, s)
  | (true, s) => store c s p

/-- The search loop that `lookup` and `del` have in common: the slot of the item with the key,
and the item.
mirrors hash_table.h:151-170 and 177-214 -/
def find [DecidableEq K] (s : St T) (key : K) : Option (Nat × T) :=
  if s.used ≠ 0 then
    match probeTable (stopsAt c key) s.items s.log2Capacity (1 <<< s.log2Capacity)
        (c.hash32 key) with
    | some i => match slot s.items i with
      | .item p => some (i, p)
      | _ => none
    | none => none
  else none

/-- mirrors hash_table.h:147-171 -/
def lookup [DecidableEq K] (s : St T) (key : K) : Option T := (find c s key).map (·.2)

/-- What `del` stores once it has found the item in slot `i`.
mirrors hash_table.h:191-200 -/
def vacate (s : St T) (i : Nat) : St T :=
  if (slot s.items ((i + 1) &&& maskOf s.log2Capacity)).isNull then
    { s with items := s.items.set i .null, used := s.used - 1 }
  else { s with items := s.items.set i .hole, used := s.used - 1, holes := s.holes + 1 }

/-- mirrors hash_table.h:203-204 -/
def collect (s : St T) (mem : Bool) : St T :=
  if 64 < s.holes ∧ s.items.length >>> 1 < s.holes then (rehash c s s.log2Capacity mem).2 else s

/-- mirrors hash_table.h:175-215 -/
def del [DecidableEq K] (s : St T) (key : K) (mem : Bool) : Bool × St T :=
  match find c s key with
  | some (i, _) => (true, collect c (vacate s i) mem)
  | none => (false, s)

/-- `clear`, and the destructor.
mirrors hash_table.h:219-225 -/
def clear : St T := ⟨[], 0, 0, 0⟩

/-! ## Slots -/

variable {items : List (Slot T)} {i log2 j : Nat} {p : T} {v : Slot T}

theorem slot_of_length_le (h : items.length ≤ i) : slot items i = .null := by
  simp [slot, h]

theorem lt_of_slot (h : slot items i ≠ .null) : i < items.length := by
  by_contra hle
  exact h (slot_of_length_le (le_of_not_gt hle))

theorem slot_set_of_ne (hij : j ≠ i) (v : Slot T) : slot (items.set i v) j = slot items j := by
  simp [slot, getElem?_set_ne hij.symm]

def Slot.isItem : Slot T → Bool
  | .item _ => true
  | _ => false

def Slot.isHole : Slot T → Bool
  | .hole => true
  | _ => false

section

variable (hi : i < items.length)
include hi

theorem slot_set_self (v : Slot T) : slot (items.set i v) i = v := by
  simp [slot, hi]

/-- A slot that is not null after another one was stored into was so before, or is that one. -/
theorem slot_set_ne_null (hv : v ≠ .null) (hj : slot items j ≠ .null) :
    slot (items.set i v) j ≠ .null := by
  by_cases hij : j = i
  · rw [hij, slot_set_self hi]
    exact hv
  · rwa [slot_set_of_ne hij]

theorem exists_slot_set_item (hfree : (slot items i).isFree = true) (p q : T) :
    (∃ j, slot (items.set i (.item p)) j = .item q) ↔ q = p ∨ ∃ j, slot items j = .item q := by
  constructor
  · rintro ⟨j, hj⟩
    by_cases hji : j = i
    · subst hji
      rw [slot_set_self hi] at hj
      cases hj
      exact .inl rfl
    · rw [slot_set_of_ne hji] at hj
      exact .inr ⟨j, hj⟩
  · rintro (rfl | ⟨j, hj⟩)
    · exact ⟨i, slot_set_self hi _⟩
    · have hji : j ≠ i := by
        rintro rfl
        rw [hj] at hfree
        cases hfree
      exact ⟨j, by rwa [slot_set_of_ne hji]⟩

theorem slot_eq_getElem : slot items i = items[i] := by
  simp [slot, hi]

theorem countP_set_slot (v : Slot T) (q : Slot T → Bool) :
    (items.set i v).countP q + (q (slot items i)).toNat = items.countP q + (q v).toNat := by
  have hpos : q (slot items i) = true → 0 < items.countP q := by
    intro hq
    exact countP_pos_iff.mpr ⟨_, slot_eq_getElem hi ▸ getElem_mem hi, hq⟩
  rw [countP_set hi, ← slot_eq_getElem hi]
  cases hq : q (slot items i) with
  | false => cases q v <;> simp
  | true =>
    have := hpos hq
    cases q v <;> simp <;> omega

end

theorem countP_not_null (items : List (Slot T)) :
    items.countP (fun s => !s.isNull) = items.countP isItem + items.countP isHole := by
  induction items with
  | nil => rfl
  | cons s items ih =>
    simp only [countP_cons, ih]
    cases s <;> simp [isNull, isItem, isHole] <;> omega

/-! ## Probes -/

/-- The slot a key starts at. -/
def home (log2 : Nat) (k : K) : Nat := (c.hash32 k).toNat % 2 ^ log2

theorem and_maskOf (x log2 : Nat) : x &&& maskOf log2 = x % 2 ^ log2 :=
  and_two_pow_sub_one_eq_mod x log2

theorem probe_iterate (log2 d : Nat) (k : K) :
    (fun i => (i + 1) &&& maskOf log2)^[d] (home c log2 k) = (home c log2 k + d) % 2 ^ log2 :=
  ring_iterate (Nat.mod_lt _ (Nat.two_pow_pos _)) (fun i _ => and_maskOf (i + 1) log2) d

variable {c} {stop : Slot T → Bool} {s : St T} {e : Nat} {k : K}

theorem probeTable_some (h : probeTable stop items log2 e (c.hash32 k) = some i) :
    ∃ d < e, (home c log2 k + d) % 2 ^ log2 = i ∧ stop (slot items i) = true ∧
      ∀ d' < d, stop (slot items ((home c log2 k + d') % 2 ^ log2)) = false := by
  rw [probeTable, and_maskOf] at h
  obtain ⟨d, hd, hi, hstop, hbefore⟩ := probe_eq_some h
  rw [← home, probe_iterate] at hi
  refine ⟨d, hd, hi, hstop, fun d' hd' => ?_⟩
  have := hbefore d' hd'
  rwa [← home, probe_iterate] at this

theorem probeTable_isSome {d : Nat}
    (hd : d < e) (hstop : stop (slot items ((home c log2 k + d) % 2 ^ log2)) = true) :
    ∃ i, probeTable stop items log2 e (c.hash32 k) = some i := by
  rw [probeTable, and_maskOf]
  refine probe_isSome hd ?_
  rwa [← home, probe_iterate]

/-! ## Tables -/

def NotNull (items : List (Slot T)) (i : Nat) : Prop := slot items i ≠ .null

/-- Every item is reached from the slot its key starts at, and no key occurs twice. -/
structure Placed (c : Cfg T K) (items : List (Slot T)) (log2 : Nat) : Prop where
  length : items.length = 2 ^ log2
  reach : ∀ i p, slot items i = .item p →
    Reaches (2 ^ log2) (NotNull items) (home c log2 (c.key p)) i
  unique : ∀ i j p q, slot items i = .item p → slot items j = .item q → c.key p = c.key q → i = j

namespace Placed

section

variable (h : Placed c items log2) (hi : i < items.length)
include hi

theorem slot_of_set (hv : v.isItem = false) (hj : slot (items.set i v) j = .item p) :
    j ≠ i ∧ slot items j = .item p := by
  have hji : j ≠ i := by
    rintro rfl
    rw [slot_set_self hi] at hj
    rw [hj] at hv
    cases hv
  rw [slot_set_of_ne hji] at hj
  exact ⟨hji, hj⟩

include h

/-- Storing an item with a new key into a free slot it reaches. -/
theorem set_item (hreach : Reaches (2 ^ log2) (NotNull items) (home c log2 (c.key p)) i)
    (hnew : ∀ j q, slot items j = .item q → c.key q ≠ c.key p) :
    Placed c (items.set i (.item p)) log2 where
  length := by rw [length_set, h.length]
  reach j q hj := by
    have hmono : ∀ k, NotNull items k → NotNull (items.set i (.item p)) k :=
      fun k => slot_set_ne_null hi nofun
    by_cases hji : j = i
    · subst hji
      rw [slot_set_self hi] at hj
      cases hj
      exact hreach.mono hmono
    · rw [slot_set_of_ne hji] at hj
      exact (h.reach j q hj).mono hmono
  unique j k q r hj hk hkey := by
    by_cases hji : j = i <;> by_cases hki : k = i
    · rw [hji, hki]
    · subst hji
      rw [slot_set_self hi] at hj
      rw [slot_set_of_ne hki] at hk
      cases hj
      exact absurd hkey.symm (hnew k r hk)
    · subst hki
      rw [slot_set_self hi] at hk
      rw [slot_set_of_ne hji] at hj
      cases hk
      exact absurd hkey (hnew j q hj)
    · rw [slot_set_of_ne hji] at hj
      rw [slot_set_of_ne hki] at hk
      exact h.unique j k q r hj hk hkey

/-- Emptying a slot, if the ways to the items that stay are not cut. -/
theorem set_empty (hv : v.isItem = false) (hways : ∀ j p, slot items j = .item p →
      Reaches (2 ^ log2) (NotNull (items.set i v)) (home c log2 (c.key p)) j) :
    Placed c (items.set i v) log2 where
  length := by rw [length_set, h.length]
  reach j p hj := hways j p (slot_of_set hi hv hj).2
  unique j k p q hj hk := h.unique j k p q (slot_of_set hi hv hj).2 (slot_of_set hi hv hk).2

/-- A hole cuts no way. -/
theorem set_hole : Placed c (items.set i .hole) log2 :=
  h.set_empty hi rfl fun j p hj =>
    (h.reach j p hj).mono fun _ => slot_set_ne_null hi nofun

/-- Neither does a null slot in front of another one. -/
theorem set_null
    (hnext : slot items ((i + 1) % 2 ^ log2) = .null) : Placed c (items.set i .null) log2 := by
  refine h.set_empty hi rfl fun j p hj => ?_
  have hocc : NotNull items j := by
    rw [NotNull, hj]
    exact nofun
  refine ((h.reach j p hj).vacate hocc (not_not_intro hnext)).mono fun k hk => ?_
  rw [NotNull, slot_set_of_ne hk.2]
  exact hk.1

end

end Placed

theorem probeTable_item [DecidableEq K] (h : Placed c items log2) (hp : slot items i = .item p) :
    probeTable (stopsAt c (c.key p)) items log2 (2 ^ log2) (c.hash32 (c.key p)) = some i := by
  obtain ⟨d, hd, hdi, hocc⟩ := h.reach i p hp
  have hstop :
      stopsAt c (c.key p) (slot items ((home c log2 (c.key p) + d) % 2 ^ log2)) = true := by
    rw [hdi, hp]
    simp [stopsAt]
  obtain ⟨j, hj⟩ := probeTable_isSome hd hstop
  obtain ⟨d', hd', hdj, hstop', hbefore⟩ := probeTable_some hj
  rw [hj]
  -- it stops at the item at the latest, and what it meets before is not null
  have hle : d' ≤ d := by
    by_contra hlt
    have := hbefore d (lt_of_not_ge hlt)
    rw [hdi, hp] at this
    simp [stopsAt] at this
  rcases lt_or_eq_of_le hle with hlt | rfl
  · have hnn := hocc d' hlt
    rw [hdj] at hnn
    cases hslot : slot items j with
    | null => exact absurd hslot hnn
    | hole =>
      rw [hslot] at hstop'
      cases hstop'
    | item q =>
      rw [hslot] at hstop'
      have hkey : c.key q = c.key p := by simpa [stopsAt] using hstop'
      rw [h.unique j i q p hslot hp hkey]
  · rw [← hdj, hdi]

/-! ## States -/

/-- A table is empty, without slots, or has `2 ^ log2_capacity` of them. -/
structure Inv (c : Cfg T K) (s : St T) : Prop where
  size : s.items = [] ∧ s.log2Capacity = 0 ∨ Placed c s.items s.log2Capacity ∧
    0 < s.log2Capacity ∧ s.log2Capacity ≤ 30
  used : s.used = s.items.countP Slot.isItem
  holes : s.holes = s.items.countP Slot.isHole

theorem Inv.placed (h : Inv c s) (hp : slot s.items i = .item p) :
    Placed c s.items s.log2Capacity ∧ s.used ≠ 0 := by
  have hlt : i < s.items.length := lt_of_slot (by rw [hp]; exact nofun)
  refine ⟨?_, ?_⟩
  · rcases h.size with ⟨hnil, -⟩ | ⟨hpl, -⟩
    · rw [hnil] at hlt
      cases hlt
    · exact hpl
  · rw [h.used]
    refine ne_of_gt (countP_pos_iff.mpr ⟨_, getElem_mem hlt, ?_⟩)
    rw [← slot_eq_getElem hlt, hp]
    rfl

theorem find_eq_some_iff [DecidableEq K] (h : Inv c s) {key : K} :
    find c s key = some (i, p) ↔ slot s.items i = .item p ∧ c.key p = key := by
  constructor
  · intro hf
    rw [find] at hf
    split at hf
    · split at hf
      · rename_i j hj
        split at hf
        · rename_i q hq
          cases hf
          obtain ⟨-, -, -, hstop, -⟩ := probeTable_some hj
          rw [hq] at hstop
          exact ⟨hq, by simpa [stopsAt] using hstop⟩
        · cases hf
      · cases hf
    · cases hf
  · rintro ⟨hp, rfl⟩
    obtain ⟨hpl, hused⟩ := h.placed hp
    rw [find, if_pos hused, one_shiftLeft, probeTable_item hpl hp]
    simp [hp]

end Dgos.L1.HashTable
