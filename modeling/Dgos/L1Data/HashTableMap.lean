import Dgos.Core.Lts
import Dgos.L1Data.HashTable

/-!
# The hash table is a finite map

`Represents c s m`: the table holds exactly the items of the map `m`, and its counters are
right. Rehashing keeps the map; `insert`, `del` and `clear` change it as they should.

Results:
* `rehash_cases`: rehashing into a table that is not smaller keeps every item and drops the
  holes. The probe bound of the loop, the old capacity, is enough (`moveItem_probe`).
* `exec_refines`: each call on a table that stands for a map does to it what the call is
  for, and never runs into the assertion of `insert`.
* `table_is_map`: so does every call in every reachable state.
-/
namespace Dgos.L1.HashTable

open Function List Option Slot

variable {T K : Type} {c : Cfg T K}

/-! ## Maps -/

/-- What a table is for: at most one item for each key. -/
abbrev Map (T K : Type) := K → Option T

/-- The table holds exactly the items of the map. -/
structure Represents (c : Cfg T K) (s : St T) (m : Map T K) : Prop where
  inv : Inv c s
  items : ∀ p, (∃ i, slot s.items i = .item p) ↔ m (c.key p) = some p
  keyed : ∀ k p, m k = some p → c.key p = k

theorem represents_clear : Represents c (clear : St T) (fun _ => none) where
  inv := ⟨.inl ⟨rfl, rfl⟩, rfl, rfl⟩
  items p := by
    refine iff_of_false ?_ nofun
    rintro ⟨i, hi⟩
    cases hi
  keyed k p h := by cases h

theorem lookup_eq [DecidableEq K] {s : St T} {m : Map T K} (h : Represents c s m) (key : K) :
    lookup c s key = m key := by
  cases hm : m key with
  | none =>
    cases hf : find c s key with
    | none => rw [lookup, hf, map_none]
    | some r =>
      obtain ⟨hp, rfl⟩ := (find_eq_some_iff h.inv).mp (show find c s key = some (r.1, r.2) from hf)
      rw [(h.items r.2).mp ⟨r.1, hp⟩] at hm
      cases hm
  | some p =>
    have hkey := h.keyed key p hm
    subst hkey
    obtain ⟨i, hi⟩ := (h.items p).mpr hm
    rw [lookup, (find_eq_some_iff h.inv).mpr ⟨hi, rfl⟩, map_some]

/-! ## Rehashing -/

/-- After the first `n` slots of the old table. -/
structure Moved (c : Cfg T K) (old : List (Slot T)) (newLog2 n : Nat)
    (acc : List (Slot T) × Nat) : Prop where
  placed : Placed c acc.1 newLog2
  used : acc.2 = acc.1.countP Slot.isItem
  noHole : acc.1.countP Slot.isHole = 0
  le : acc.2 ≤ n
  items : ∀ p, (∃ i, slot acc.1 i = .item p) ↔ ∃ j < n, slot old j = .item p

theorem slot_replicate (n i : Nat) : slot (List.replicate n (.null : Slot T)) i = .null := by
  rcases lt_or_ge i n with hi | hi
  · simp [slot, hi]
  · exact slot_of_length_le (by rwa [length_replicate])

theorem moved_zero (old : List (Slot T)) (newLog2 : Nat) :
    Moved c old newLog2 0 (List.replicate (2 ^ newLog2) .null, 0) where
  placed := by
    refine ⟨length_replicate .., fun i p h => ?_, fun i j p q h => ?_⟩
    all_goals
      rw [slot_replicate] at h
      cases h
  used := by simp [countP_replicate, isItem]
  noHole := by simp [countP_replicate, isHole]
  le := le_refl 0
  items p := by simp [slot_replicate]

variable {old : List (Slot T)} {oldLog2 newLog2 n : Nat} {acc : List (Slot T) × Nat}

/-- The probe bound of `rehash` is the old capacity. That is enough: fewer items than that have
been moved before. -/
theorem moveItem_probe (h : Moved c old newLog2 n acc) (hn : n < 2 ^ oldLog2)
    (hlog : oldLog2 ≤ newLog2) (k : K) :
    ∃ i, probeTable isNull acc.1 newLog2 (1 <<< oldLog2) (c.hash32 k) = some i := by
  have hcap : 2 ^ oldLog2 ≤ acc.1.length := by
    rw [h.placed.length]
    exact Nat.pow_le_pow_right (by decide) hlog
  have hcount : acc.1.countP (fun s => !s.isNull) < 2 ^ oldLog2 := by
    rw [countP_not_null, ← h.used, h.noHole]
    exact lt_of_le_of_lt h.le hn
  obtain ⟨d, hd, hnull⟩ := exists_not_counted .null (home c newLog2 k) hcap hcount
  rw [h.placed.length] at hnull
  rw [Nat.one_shiftLeft]
  exact probeTable_isSome hd (by simpa [slot] using hnull)

theorem moved_skip (h : Moved c old newLog2 n acc) (hslot : ∀ p, slot old n ≠ .item p) :
    Moved c old newLog2 (n + 1) acc where
  placed := h.placed
  used := h.used
  noHole := h.noHole
  le := Nat.le_succ_of_le h.le
  items p := by
    rw [h.items]
    constructor
    · rintro ⟨j, hj, hp⟩
      exact ⟨j, Nat.lt_succ_of_lt hj, hp⟩
    · rintro ⟨j, hj, hp⟩
      rcases Nat.lt_succ_iff_lt_or_eq.mp hj with hlt | rfl
      · exact ⟨j, hlt, hp⟩
      · exact absurd hp (hslot p)

theorem moved_item (h : Moved c old newLog2 n acc) (hn : n < 2 ^ oldLog2) (hlog : oldLog2 ≤ newLog2)
    (hold : Placed c old oldLog2) {p : T} (hp : slot old n = .item p) :
    Moved c old newLog2 (n + 1) (moveItem c oldLog2 newLog2 acc (.item p)) := by
  obtain ⟨i, hi⟩ := moveItem_probe h hn hlog (c.key p)
  obtain ⟨d, hd, hdi, hnull, hbefore⟩ := probeTable_some hi
  have hnull : slot acc.1 i = .null := by
    revert hnull
    cases slot acc.1 i <;> simp [isNull]
  have hlt : i < acc.1.length := by
    rw [h.placed.length, ← hdi]
    exact Nat.mod_lt _ (Nat.two_pow_pos _)
  have hreach : Reaches (2 ^ newLog2) (NotNull acc.1) (home c newLog2 (c.key p)) i := by
    refine ⟨d, lt_of_lt_of_le hd ?_, hdi, fun d' hd' hnull' => ?_⟩
    · rw [Nat.one_shiftLeft]
      exact Nat.pow_le_pow_right (by decide) hlog
    · have := hbefore d' hd'
      rw [hnull'] at this
      cases this
  have hnew : ∀ j q, slot acc.1 j = .item q → c.key q ≠ c.key p := by
    intro j q hq hkey
    obtain ⟨k, hk, hkq⟩ := (h.items q).mp ⟨j, hq⟩
    exact absurd (hold.unique k n q p hkq hp hkey) (ne_of_lt hk)
  have hitem := countP_set_slot hlt (.item p) isItem
  have hhole := countP_set_slot hlt (.item p) isHole
  simp only [hnull, isItem, isHole, Bool.toNat_true, Bool.toNat_false, ← h.used,
    h.noHole] at hitem hhole
  rw [moveItem, hi]
  exact {
    placed := h.placed.set_item hlt hreach hnew
    used := hitem.symm
    noHole := hhole
    le := Nat.succ_le_succ h.le
    items := fun q => by
      rw [exists_slot_set_item hlt (by rw [hnull]; rfl), h.items]
      constructor
      · rintro (rfl | ⟨k, hk, hkq⟩)
        · exact ⟨n, Nat.lt_succ_self n, hp⟩
        · exact ⟨k, Nat.lt_succ_of_lt hk, hkq⟩
      · rintro ⟨k, hk, hkq⟩
        rcases Nat.lt_succ_iff_lt_or_eq.mp hk with hlt' | rfl
        · exact .inr ⟨k, hlt', hkq⟩
        · rw [hp] at hkq
          cases hkq
          exact .inl rfl }

theorem moved_all (hold : Placed c old oldLog2) (hlog : oldLog2 ≤ newLog2) : ∀ n ≤ 2 ^ oldLog2,
    Moved c old newLog2 n ((List.range n).foldl
      (fun acc src => moveItem c oldLog2 newLog2 acc (slot old src))
      (List.replicate (2 ^ newLog2) .null, 0))
  | 0, _ => moved_zero old newLog2
  | n + 1, hn => by
    have ih := moved_all hold hlog n (Nat.le_of_succ_le hn)
    rw [range_succ, foldl_append, foldl_cons]
    cases hslot : slot old n with
    | null => exact moved_skip ih (by simp [hslot])
    | hole => exact moved_skip ih (by simp [hslot])
    | item p => exact moved_item ih hn hlog hold hslot

theorem vecResize_eq (mem : Bool) (h31 : newLog2 ≤ 31) :
    vecResize mem (newCapacity newLog2) = (mem && newLog2 ≤ 30) := by
  have : ∀ n ≤ 31, decide (newCapacity n * 8 % 2 ^ 64 ≤ 2 ^ 47) = decide (n ≤ 30) := by decide
  rw [vecResize, this _ h31]

section Calls

variable {s : St T} {m : Map T K}

variable {i : Nat} {p : T}

/-- Both branches of `if (used)` leave a table with the items of the old one. -/
theorem moveAll_moved (h : Inv c s) (hlog : s.log2Capacity ≤ newLog2) (h30 : newLog2 ≤ 30) :
    ∃ n ≤ 2 ^ s.log2Capacity, Moved c s.items newLog2 n (moveAll c s newLog2) ∧
      ∀ j p, slot s.items j = .item p → j < n := by
  rw [moveAll, show newCapacity newLog2 = 2 ^ newLog2 from if_neg (by omega)]
  by_cases hused : s.used = 0
  · rw [if_neg (not_not_intro hused)]
    exact ⟨0, Nat.zero_le _, moved_zero _ _, fun j p hp => absurd hused (h.placed hp).2⟩
  have hpl : Placed c s.items s.log2Capacity := by
    rcases h.size with ⟨hnil, -⟩ | ⟨hpl, -⟩
    · rw [h.used, hnil] at hused
      exact absurd rfl hused
    · exact hpl
  rw [if_pos hused, Nat.one_shiftLeft]
  refine ⟨_, le_rfl, moved_all hpl hlog _ le_rfl, fun j p hp => ?_⟩
  rw [← hpl.length]
  exact lt_of_slot (by rw [hp]; exact nofun)

theorem Inv.log2_of_lt (h : Inv c s) (hi : i < s.items.length) :
    0 < s.log2Capacity ∧ s.log2Capacity ≤ 30 := by
  rcases h.size with ⟨hnil, -⟩ | ⟨-, hlog⟩
  · rw [hnil] at hi
    cases hi
  · exact hlog

theorem Inv.log2_le (h : Inv c s) : s.log2Capacity ≤ 30 := by
  rcases h.size with ⟨-, h0⟩ | ⟨-, -, h30⟩ <;> omega

theorem growLog2_spec (h : Inv c s) :
    0 < s.growLog2 ∧ s.log2Capacity < s.growLog2 ∧ s.growLog2 ≤ 31 := by
  have := h.log2_le
  rw [St.growLog2]
  split <;> omega

/-- With a free slot the probe of `insert` finds one the item reaches. -/
theorem store_probe {items : List (Slot T)} {log2 : Nat} (hpl : Placed c items log2)
    (hroom : items.countP isItem < 2 ^ log2) (k : K) :
    ∃ i, probeTable isFree items log2 (1 <<< log2) (c.hash32 k) = some i ∧
      i < items.length ∧ (slot items i).isFree = true ∧
      Reaches (2 ^ log2) (NotNull items) (home c log2 k) i := by
  obtain ⟨d, hd, hfree⟩ := exists_not_counted .null (home c log2 k) (le_of_eq hpl.length.symm) hroom
  rw [hpl.length] at hfree
  have hstop : (slot items ((home c log2 k + d) % 2 ^ log2)).isFree = true := by
    revert hfree
    rw [← slot]
    cases slot items ((home c log2 k + d) % 2 ^ log2) <;> simp [isItem, isFree]
  rw [Nat.one_shiftLeft]
  obtain ⟨i, hi⟩ := probeTable_isSome hd hstop
  obtain ⟨d', hd', hdi, hfree', hbefore⟩ := probeTable_some hi
  refine ⟨i, hi, ?_, hfree', d', hd', hdi, fun e he hnull => ?_⟩
  · rw [hpl.length, ← hdi]
    exact Nat.mod_lt _ (Nat.two_pow_pos _)
  · have := hbefore e he
    rw [hnull] at this
    cases this

variable (h : Represents c s m) (mem : Bool)
include h

section

variable (h0 : 0 < newLog2) (hlog : s.log2Capacity ≤ newLog2) (h31 : newLog2 ≤ 31)
include h0 hlog h31

theorem rehash_cases :
    rehash c s newLog2 mem = (false, s) ∨ ∃ s', rehash c s newLog2 mem = (true, s') ∧
      Represents c s' m ∧ s'.log2Capacity = newLog2 ∧ s'.used ≤ 2 ^ s.log2Capacity := by
  by_cases hres : vecResize mem (newCapacity newLog2) = true
  · have h30 : newLog2 ≤ 30 := by
      rw [vecResize_eq mem h31, Bool.and_eq_true] at hres
      exact of_decide_eq_true hres.2
    obtain ⟨n, hn, hmoved, hall⟩ := moveAll_moved h.inv hlog h30
    refine .inr ⟨_, if_pos hres, ⟨⟨.inr ⟨hmoved.placed, h0, h30⟩, hmoved.used,
      hmoved.noHole.symm⟩, fun p => ?_, h.keyed⟩, rfl, le_trans hmoved.le hn⟩
    rw [hmoved.items, ← h.items]
    constructor
    · rintro ⟨j, -, hj⟩
      exact ⟨j, hj⟩
    · rintro ⟨j, hj⟩
      exact ⟨j, hall j p hj, hj⟩
  · exact .inl (if_neg hres)

theorem rehash_represents : Represents c (rehash c s newLog2 mem).2 m := by
  rcases rehash_cases h mem h0 hlog h31 with heq | ⟨s', heq, hs', -⟩
  · rwa [heq]
  · rwa [heq]

end

/-- After `makeRoom` has succeeded there is a slot for one more item. -/
theorem makeRoom_cases :
    makeRoom c s mem = (false, s) ∨ ∃ s', makeRoom c s mem = (true, s') ∧ Represents c s' m ∧
      Placed c s'.items s'.log2Capacity ∧ s'.used < 2 ^ s'.log2Capacity := by
  by_cases hfull : s.items.isEmpty ∨ (1 <<< s.log2Capacity) >>> 1 ≤ s.used
  · rw [makeRoom, if_pos hfull]
    obtain ⟨h0, hlt, h31⟩ := growLog2_spec h.inv
    rcases rehash_cases h mem h0 (le_of_lt hlt) h31 with heq | ⟨s', heq, hs', hlog, hused⟩
    · exact .inl heq
    refine .inr ⟨s', heq, hs', ?_, ?_⟩
    · rcases hs'.inv.size with ⟨-, hzero⟩ | ⟨hpl, -⟩
      · omega
      · exact hpl
    · rw [hlog]
      exact lt_of_le_of_lt hused (Nat.pow_lt_pow_right (by decide) hlt)
  · rw [makeRoom, if_neg hfull]
    rw [not_or] at hfull
    refine .inr ⟨s, rfl, h, ?_, by omega⟩
    rcases h.inv.size with ⟨hnil, -⟩ | ⟨hpl, -⟩
    · exact absurd (by rw [hnil]; rfl) hfull.1
    · exact hpl

/-- The table is not half full, or it grows, which it can up to `2 ^ 30` slots. -/
theorem makeRoom_fst : (makeRoom c s mem).1 =
    decide (s.used < 2 ^ s.log2Capacity / 2 ∨ mem = true ∧ s.log2Capacity < 30) := by
  have hlog : s.growLog2 ≤ 30 ↔ s.log2Capacity < 30 := by
    rw [St.growLog2]
    split <;> omega
  have hempty : s.items.isEmpty → 2 ^ s.log2Capacity / 2 = 0 := fun hnil => by
    rcases h.inv.size with ⟨-, h0⟩ | ⟨hpl, -⟩
    · rw [h0]; rfl
    · have := hpl.length
      rw [isEmpty_iff.1 hnil] at this
      exact absurd this.symm (Nat.two_pow_pos _).ne'
  have hgrow := vecResize_eq mem (growLog2_spec h.inv).2.2
  rw [makeRoom, Nat.one_shiftLeft, Nat.shiftRight_eq_div_pow]
  split_ifs with hfull
  · rw [grow, rehash, apply_ite Prod.fst, hgrow, Bool.if_true_left]
    grind
  · grind

theorem collect_represents : Represents c (collect c s mem) m := by
  rw [collect]
  split_ifs with hholes
  · -- a table with holes has slots
    have hlen : 0 < s.items.length := by
      have := countP_le_length (p := isHole) (l := s.items)
      rw [← h.inv.holes] at this
      omega
    exact rehash_represents h mem (h.inv.log2_of_lt hlen).1 le_rfl (Nat.le_succ_of_le h.inv.log2_le)
  · exact h

variable [DecidableEq K]

theorem store_represents (hpl : Placed c s.items s.log2Capacity)
    (hroom : s.used < 2 ^ s.log2Capacity) (hnew : m (c.key p) = none) :
    ∃ s', store c s p = .ok (true, s') ∧ Represents c s' (update m (c.key p) (some p)) := by
  rw [h.inv.used] at hroom
  obtain ⟨i, hprobe, hi, hfree, hreach⟩ := store_probe hpl hroom (c.key p)
  have hkeys : ∀ j q, slot s.items j = .item q → c.key q ≠ c.key p := by
    intro j q hq hkey
    have := (h.items q).mp ⟨j, hq⟩
    rw [hkey, hnew] at this
    cases this
  have hitem := countP_set_slot hi (.item p) isItem
  have hhole := countP_set_slot hi (.item p) isHole
  rw [← h.inv.used] at hitem
  rw [← h.inv.holes] at hhole
  rw [store, hprobe]
  refine ⟨_, rfl, ⟨.inr ⟨hpl.set_item hi hreach hkeys, ?_⟩, ?_, ?_⟩, fun q => ?_, fun k q hq => ?_⟩
  · exact h.inv.log2_of_lt hi
  · cases hslot : slot s.items i with
    | item q =>
      rw [hslot] at hfree
      cases hfree
    | _ =>
      rw [hslot] at hitem
      exact hitem.symm
  · cases hslot : slot s.items i with
    | null =>
      rw [hslot] at hhole
      exact hhole.symm
    | hole =>
      rw [hslot] at hhole
      exact Nat.sub_eq_of_eq_add hhole.symm
    | item q =>
      rw [hslot] at hfree
      cases hfree
  · rw [exists_slot_set_item hi hfree, h.items, update_apply]
    split_ifs with hkey
    · rw [hkey, hnew, some.injEq]
      simp only [reduceCtorEq, or_false]
      exact eq_comm
    · rw [or_iff_right]
      rintro rfl
      exact hkey rfl
  · rw [update_apply] at hq
    split at hq
    · cases hq
      exact Eq.symm ‹_›
    · exact h.keyed k q hq

theorem vacate_items (hp : slot s.items i = .item p)
    {v : Slot T} (hv : v.isItem = false) (q : T) :
    (∃ j, slot (s.items.set i v) j = .item q) ↔ update m (c.key p) none (c.key q) = some q := by
  have hi : i < s.items.length := lt_of_slot (by rw [hp]; exact nofun)
  rw [update_apply]
  split_ifs with hkey
  · refine iff_of_false ?_ nofun
    rintro ⟨j, hj⟩
    obtain ⟨hji, hj⟩ := Placed.slot_of_set hi hv hj
    exact hji ((h.inv.placed hp).1.unique j i q p hj hp hkey)
  · rw [← h.items]
    constructor
    · rintro ⟨j, hj⟩
      exact ⟨j, (Placed.slot_of_set hi hv hj).2⟩
    · rintro ⟨j, hj⟩
      have hji : j ≠ i := by
        rintro rfl
        rw [hp] at hj
        cases hj
        exact hkey rfl
      exact ⟨j, by rwa [slot_set_of_ne hji]⟩

theorem vacate_keyed (k : K) (k' : K) (q : T)
    (hq : update m k none k' = some q) : c.key q = k' := by
  rw [update_apply] at hq
  split at hq
  · cases hq
  · exact h.keyed k' q hq

theorem vacate_represents (hp : slot s.items i = .item p) :
    Represents c (vacate s i) (update m (c.key p) none) := by
  have hi : i < s.items.length := lt_of_slot (by rw [hp]; exact nofun)
  obtain ⟨hpl, -⟩ := h.inv.placed hp
  have hlog := h.inv.log2_of_lt hi
  have hitem := fun v => countP_set_slot hi v isItem
  have hhole := fun v => countP_set_slot hi v isHole
  simp only [hp, ← h.inv.used, ← h.inv.holes] at hitem hhole
  rw [vacate, and_maskOf]
  split_ifs with hnext
  · have hnull : slot s.items ((i + 1) % 2 ^ s.log2Capacity) = .null := by
      revert hnext
      cases slot s.items ((i + 1) % 2 ^ s.log2Capacity) <;> simp [isNull]
    refine ⟨⟨.inr ⟨hpl.set_null hi hnull, hlog⟩, ?_, ?_⟩, vacate_items h hp rfl, vacate_keyed h _⟩
    · exact Nat.sub_eq_of_eq_add (hitem .null).symm
    · exact (hhole .null).symm
  · refine ⟨⟨.inr ⟨hpl.set_hole hi, hlog⟩, ?_, ?_⟩, vacate_items h hp rfl, vacate_keyed h _⟩
    · exact Nat.sub_eq_of_eq_add (hitem .hole).symm
    · exact (hhole .hole).symm

end Calls

/-! ## Histories -/

/-- A call, with the answer of the memory allocator to the allocation it may make. -/
inductive Op (T K : Type)
  | insert (p : T) (mem : Bool)
  | del (key : K) (mem : Bool)
  | lookup (key : K)
  | clear

inductive Ret (T : Type)
  | done (ok : Bool)
  | found (p : Option T)

section History

variable [DecidableEq K] {s : St T} {m : Map T K}

def exec (c : Cfg T K) (s : St T) : Op T K → Except Err (Ret T × St T)
  | .insert p mem => (insert c s p mem).map fun r => (.done r.1, r.2)
  | .del key mem => .ok (.done (del c s key mem).1, (del c s key mem).2)
  | .lookup key => .ok (.found (lookup c s key), s)
  | .clear => .ok (.done true, clear)

/-- Items are inserted only when their key is not in the map. -/
def Pre (c : Cfg T K) (m : Map T K) : Op T K → Prop
  | .insert p _ => m (c.key p) = none
  | _ => True

/-- The map after a call that answered `r`. -/
def next (c : Cfg T K) (m : Map T K) : Op T K → Ret T → Map T K
  | .insert p _, .done true => update m (c.key p) (some p)
  | .del key _, _ => update m key none
  | .clear, _ => fun _ => none
  | _, _ => m

/-- The answer of a call. `insert` fails only when the table is half full and cannot grow. -/
def Answers (s : St T) (m : Map T K) : Op T K → Ret T → Prop
  | .insert _ mem, r =>
    r = .done (s.used < 2 ^ s.log2Capacity / 2 ∨ mem = true ∧ s.log2Capacity < 30)
  | .del key _, r => r = .done (m key).isSome
  | .lookup key, r => r = .found (m key)
  | .clear, r => r = .done true

section

variable (h : Represents c s m)
include h

theorem insert_refines (mem : Bool) {p : T} (hnew : m (c.key p) = none) :
    ∃ r s', exec c s (.insert p mem) = .ok (r, s') ∧ Answers s m (.insert p mem) r ∧
      Represents c s' (next c m (.insert p mem) r) := by
  rcases makeRoom_cases h mem with hroom | ⟨s1, hroom, h1, hpl, hused⟩
  · refine ⟨.done false, s, ?_, ?_, h⟩
    · simp [exec, insert, hroom, Except.map]
    · rw [Answers, ← makeRoom_fst h, hroom]
  · obtain ⟨s2, hstore, h2⟩ := store_represents h1 hpl hused hnew
    refine ⟨.done true, s2, ?_, ?_, h2⟩
    · simp [exec, insert, hroom, hstore, Except.map]
    · rw [Answers, ← makeRoom_fst h, hroom]

theorem del_refines (key : K) (mem : Bool) : (del c s key mem).1 = (m key).isSome ∧
      Represents c (del c s key mem).2 (update m key none) := by
  have hlookup := lookup_eq h key
  rw [lookup] at hlookup
  rw [del]
  cases hf : find c s key with
  | none =>
    have hm : m key = none := by rw [← hlookup, hf, map_none]
    rw [hm, update_eq_self_iff.mpr hm.symm]
    exact ⟨rfl, h⟩
  | some r =>
    have hm : m key = some r.2 := by rw [← hlookup, hf, map_some]
    obtain ⟨hslot, rfl⟩ := (find_eq_some_iff h.inv).mp (show find c s key = some (r.1, r.2) from hf)
    rw [hm]
    exact ⟨rfl, collect_represents (vacate_represents h hslot) mem⟩

theorem exec_refines {op : Op T K} (hpre : Pre c m op) :
    ∃ r s', exec c s op = .ok (r, s') ∧ Answers s m op r ∧ Represents c s' (next c m op r) := by
  cases op with
  | insert p mem => exact insert_refines h mem hpre
  | del key mem =>
    obtain ⟨hok, h'⟩ := del_refines h key mem
    exact ⟨_, _, rfl, congrArg Ret.done hok, h'⟩
  | lookup key => exact ⟨_, _, rfl, congrArg Ret.found (lookup_eq h key), h⟩
  | clear => exact ⟨_, _, rfl, rfl, represents_clear⟩

end

/-- The table next to the map its history defines. -/
def lts (c : Cfg T K) : LTS (St T × Map T K) (Op T K) where
  init x := x = (St.init, fun _ => none)
  step x op x' := Pre c x.2 op ∧ ∃ r, exec c x.1 op = .ok (r, x'.1) ∧ x'.2 = next c x.2 op r

theorem represents_inductive (c : Cfg T K) : (lts c).Inductive fun x => Represents c x.1 x.2 where
  init x hx := by
    subst hx
    exact represents_clear
  step x op x' h hstep := by
    obtain ⟨hpre, r, heq, hm⟩ := hstep
    obtain ⟨r', s', heq', -, h'⟩ := exec_refines h hpre
    cases heq.symm.trans heq'
    rwa [hm]

/-- **The table is a finite map.** In every state a history of calls reaches, looking up a key
gives the item inserted last under it and not deleted since; the counters count the live items
and the holes; rehashing, to the next size or in place, keeps every item; and every call
returns, with the right answer: the assertion of `insert` is never reached. -/
theorem table_is_map (c : Cfg T K) (x : St T × Map T K) (hx : (lts c).Reachable x) :
    (∀ key, lookup c x.1 key = x.2 key) ∧
      x.1.used = x.1.items.countP Slot.isItem ∧ x.1.holes = x.1.items.countP Slot.isHole ∧
      (∀ mem key, lookup c (grow c x.1 mem).2 key = x.2 key) ∧
      (∀ mem key, 0 < x.1.log2Capacity →
        lookup c (rehash c x.1 x.1.log2Capacity mem).2 key = x.2 key) ∧
      ∀ op, Pre c x.2 op → ∃ r s', exec c x.1 op = .ok (r, s') ∧ Answers x.1 x.2 op r := by
  have h := (represents_inductive c).reachable x hx
  refine ⟨lookup_eq h, h.inv.used, h.inv.holes, fun mem key => ?_, fun mem key h0 => ?_,
    fun op hpre => ?_⟩
  · obtain ⟨h0, hlt, h31⟩ := growLog2_spec h.inv
    exact lookup_eq (rehash_represents h mem h0 (le_of_lt hlt) h31) key
  · exact lookup_eq (rehash_represents h mem h0 le_rfl
      (Nat.le_succ_of_le h.inv.log2_le)) key
  · obtain ⟨r, s', heq, hans, -⟩ := exec_refines h hpre
    exact ⟨r, s', heq, hans⟩

end History

def sampleCfg : Cfg (Nat × Nat) Nat := ⟨Prod.fst, UInt32.ofNat⟩

/-- A table of 16 slots, of which these are the first, and the map it stands for. -/
def sample (slots : List (Slot (Nat × Nat))) (used holes : Nat) (m : Map (Nat × Nat) Nat) :
    St (Nat × Nat) × Map (Nat × Nat) Nat :=
  (⟨slots ++ List.replicate (16 - slots.length) .null, used, holes, 4⟩, m)

def oneItem := sample [.null, .item (1, 7)] 1 0 (update (fun _ => none) 1 (some (1, 7)))

def twoItems :=
  sample [.null, .item (1, 7), .item (17, 8)] 2 0 (update oneItem.2 17 (some (17, 8)))

def itemAndHole := sample [.null, .hole, .item (17, 8)] 1 1 (update twoItems.2 1 none)

/-- Two items with one home, the first of which is deleted: the other is found across the hole. -/
theorem table_is_map_sample : lookup sampleCfg itemAndHole.1 17 = some (17, 8) := by
  have h1 : (lts sampleCfg).step (St.init, fun _ => none) (.insert (1, 7) true) oneItem :=
    ⟨rfl, .done true, rfl, rfl⟩
  have h2 : (lts sampleCfg).step oneItem (.insert (17, 8) false) twoItems :=
    ⟨rfl, .done true, rfl, rfl⟩
  have h3 : (lts sampleCfg).step twoItems (.del 1 true) itemAndHole :=
    ⟨trivial, .done true, rfl, rfl⟩
  exact (table_is_map sampleCfg _ ⟨_, _, rfl, .cons h1 (.cons h2 (.cons h3 (.nil _)))⟩).1 17

end Dgos.L1.HashTable
