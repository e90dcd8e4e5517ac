import Dgos.L2Memory.ContigAllocInv

/-!
# `take_linear` right behind a held range (kernel/lib/contig_alloc.cc)

`mremap` calls `take_linear` with `require_free` for the space behind a mapping. The two tests
that would refuse compare the end of the request with the start of a range, so they never do;
and a range that is taken as a whole fails an assertion in the next round of the loop.

Results:
* `takeLinear_behind`: a call that returns has either taken nothing, or the part of one range
  in front of the end of the request. It never answers `false`.
* `exclusive_right_iff`: with `require_free` a call is right exactly when the range is free.
-/
namespace Dgos.L2.ContigAlloc

open OrdSet Option Nat

/-- No range reaches from below `addr` up to it. -/
def Behind (s : OrdSet Item) (addr : Nat) : Prop :=
  ∀ i ∈ s, i.first < addr → i.first + i.second ≤ addr

/-- The free ranges without the part of `i` in front of `fin`. -/
def cutFront (s : OrdSet Item) (i : Item) (fin : Nat) : OrdSet Item :=
  ((s.erase i).insert ⟨fin, i.first + i.second - fin⟩).1

variable {size addr : Nat} {a' : Alloc} {s : OrdSet Item} {hiIt : Option Item} {b : Bool}

theorem cutFront_eq_takeFront {i : Item} (h : size < i.second) :
    cutFront s i (i.first + size) = takeFront s i size := by
  rw [takeFront, if_pos h, cutFront, Nat.add_sub_add_left]

section

variable {a : Alloc} (hs : a.Swapped) (h : Sep a.freeAddrByAddr)
include h

variable {fin : Nat} {i p : Item}

theorem refuses_pred {size : Nat}
    (hp : p = ⟨0, 0⟩ ∨ p ∈ a.freeAddrByAddr ∧ p.first + p.second ≤ addr) :
    refuses addr size fin p = false := by
  rcases hp with rfl | ⟨hm, hle⟩
  · simp [refuses]
  · rw [refuses, mod_eq_of_lt (h.bound p hm),
      decide_eq_false (show ¬ addr < p.first + p.second by omega), Bool.and_false, Bool.false_and]

theorem takePred_skip (hp : p = ⟨0, 0⟩ ∨ p ∈ a.freeAddrByAddr ∧ p.first + p.second ≤ addr) :
    takePred a addr fin p = .ok a := by
  rcases hp with rfl | ⟨hm, hle⟩
  · rfl
  · unfold takePred
    rw [mod_eq_of_lt (h.bound p hm), if_neg (by omega)]
    rfl

include hs
section

variable (hi : i ∈ a.freeAddrByAddr) (h1 : addr ≤ i.first)
include hi h1

theorem carve_whole (h2 : i.first + i.second ≤ fin) : carve a addr fin i = .ok (none, { a with
      freeAddrByAddr := a.freeAddrByAddr.erase i
      freeAddrBySize := a.freeAddrBySize.erase i.swap }) := by
  have hmod := mod_eq_of_lt (h.bound i hi)
  have hm : i.swap ∈ a.freeAddrBySize := by rw [hs, mem_swapSet]; exact hi
  unfold carve
  simp only [hmod, if_neg (show ¬ i.first < addr by omega),
    if_neg (show ¬ fin < i.first + i.second by omega)]
  rw [assert_bind hm]
  rfl

theorem carve_front (h2 : i.first < fin) (h3 : fin < i.first + i.second) :
    carve a addr fin i = .ok (some ⟨fin, i.first + i.second - fin⟩,
      a.withFree (cutFront a.freeAddrByAddr i fin)) := by
  have hmod := mod_eq_of_lt (h.bound i hi)
  have hm : i.swap ∈ a.freeAddrBySize := by rw [hs, mem_swapSet]; exact hi
  have herase : a.freeAddrBySize.erase i.swap = swapSet (a.freeAddrByAddr.erase i) := by
    rw [swapSet_erase, hs]
  have hnew : (⟨fin, i.first + i.second - fin⟩ : Item) ∉ a.freeAddrByAddr.erase i := fun hc => by
    have := h.apart_part hi fin (i.first + i.second - fin) (by omega) (by omega) _ hc
    simp only at this
    omega
  have hpos : i.first + i.second - fin ≠ 0 := by omega
  unfold carve
  simp only [hmod, if_neg (show ¬ i.first < addr by omega), if_pos h3]
  rw [assert_bind hm]
  unfold putParts
  rw [if_pos hpos]
  exact ok_bind (insertNodes_ok herase hnew) _

/-- The loop from a range at or above `addr`: it is left alone, loses its front, or fails. -/
theorem takeLoop_ok {fuel : Nat} (hok : takeLoop addr fin hiIt (fuel + 2) a i true = .ok a') :
    (a' = a ∧ (hiIt = some i ∨ fin ≤ i.first)) ∨ (i.first < fin ∧ fin < i.first + i.second ∧
        a' = a.withFree (cutFront a.freeAddrByAddr i fin)) := by
  unfold takeLoop at hok
  split at hok
  · cases hok
    exact .inl ⟨rfl, .inl ‹_›⟩
  split at hok
  · cases hok
    exact .inl ⟨rfl, .inr ‹_›⟩
  rename_i hhi hlt
  rw [assert_bind rfl] at hok
  rcases lt_or_ge fin (i.first + i.second) with hcut | hwhole
  · rw [ok_bind (carve_front hs h hi h1 (by omega) hcut)] at hok
    -- the node now starts at `fin`, so the next round stops
    simp only [getD_some, isSome_some] at hok
    unfold takeLoop at hok
    simp only [le_refl, if_true, ite_self] at hok
    cases hok
    exact .inr ⟨by omega, hcut, rfl⟩
  · -- the node is in no tree any more, and the next round extracts it again
    rw [ok_bind (carve_whole hs h hi h1 hwhole)] at hok
    simp only [getD_none, isSome_none] at hok
    unfold takeLoop at hok
    rw [if_neg hhi, if_neg hlt] at hok
    obtain ⟨_, hfalse, -⟩ := bind_eq_ok hok
    cases assert_eq_ok hfalse

end

end

theorem refuses_succ (hsize : size < w64) {i : Item} (hle : addr ≤ i.first)
    (hb : i.first < w64) : refuses addr size ((addr + size) % w64) i = false := by
  unfold refuses
  rcases lt_or_eq_of_le hle with hlt | heq
  · rw [decide_eq_false (show ¬ i.first ≤ addr by omega), Bool.false_and, Bool.false_and]
  · have hsub : sub64 ((addr + size) % w64) i.first = size := by
      unfold sub64
      unfold w64 at *
      omega
    rw [hsub, decide_eq_false (lt_irrefl size), Bool.and_false]

theorem predAt_below (hb : Behind s addr) :
    predAt s (s.lowerBound ⟨addr, 0⟩) = ⟨0, 0⟩ ∨ predAt s (s.lowerBound ⟨addr, 0⟩) ∈ s ∧
      (predAt s (s.lowerBound ⟨addr, 0⟩)).first + (predAt s (s.lowerBound ⟨addr, 0⟩)).second ≤
        addr := by
  have hlt : ∀ p : Item, p < ⟨addr, 0⟩ → p.first < addr := fun p hp => by
    rw [Item.lt_iff] at hp
    simp only at hp
    omega
  cases hlo : s.lowerBound ⟨addr, 0⟩ with
  | none =>
    cases hl : s.last with
    | none => exact .inl (by rw [predAt, hl]; rfl)
    | some p =>
      have hm := mem_of_last hl
      simp only [predAt, hl, getD_some]
      exact .inr ⟨hm, hb p hm (hlt p (lowerBound_eq_none.1 hlo p hm))⟩
  | some i =>
    cases hp : s.prev i with
    | none => exact .inl (by rw [predAt, hp]; rfl)
    | some p =>
      obtain ⟨hm, hpi, -⟩ := prev_eq_some.1 hp
      obtain ⟨-, -, hmin⟩ := lowerBound_eq_some.1 hlo
      have hk : p < ⟨addr, 0⟩ := not_le.1 fun hc => absurd (hmin p hm hc) (not_le.2 hpi)
      simp only [predAt, hp, getD_some]
      exact .inr ⟨hm, hb p hm (hlt p hk)⟩

theorem takeLinear_behind {a : Alloc} (hs : a.Swapped) (h : Sep a.freeAddrByAddr)
    (hsize : size < w64) (hb : Behind a.freeAddrByAddr addr)
    (hok : takeLinear a addr size true = .ok (b, a')) : b = true ∧
      ((a' = a ∧ ∀ i, a.freeAddrByAddr.lowerBound ⟨addr, 0⟩ = some i →
        (addr + size) % w64 ≤ i.first) ∨
      ∃ i, a.freeAddrByAddr.lowerBound ⟨addr, 0⟩ = some i ∧
        i.first < (addr + size) % w64 ∧ (addr + size) % w64 < i.first + i.second ∧
        a' = a.withFree (cutFront a.freeAddrByAddr i ((addr + size) % w64))) := by
  obtain ⟨-, -, hok⟩ := bind_eq_ok hok
  obtain ⟨-, -, hok⟩ := bind_eq_ok hok
  obtain ⟨-, -, hok⟩ := bind_eq_ok hok
  obtain ⟨-, -, hok⟩ := bind_eq_ok hok
  have hp := predAt_below hb
  cases hlo : a.freeAddrByAddr.lowerBound ⟨addr, 0⟩ with
  | none =>
    simp only [hlo] at hok hp
    rw [if_neg (by simp [refuses_pred h hp, refuses_pred h (.inl rfl)])] at hok
    unfold takeRange at hok
    rw [ok_bind (takePred_skip h hp)] at hok
    obtain ⟨a1, h1, hok⟩ := bind_eq_ok hok
    cases h1
    obtain ⟨_, -, hok⟩ := bind_eq_ok hok
    cases hok
    exact ⟨rfl, .inl ⟨rfl, fun i hi => by cases hi⟩⟩
  | some i =>
    obtain ⟨hi, hle, -⟩ := lowerBound_eq_some.1 hlo
    have hfirst : ∀ x, (⟨x, 0⟩ : Item) ≤ i → x ≤ i.first := fun x hx => by
      rw [Item.le_iff] at hx
      simp only at hx
      omega
    have hle' := hfirst addr hle
    have hbi := h.bound i hi
    simp only [hlo] at hok hp
    rw [if_neg (by simp [refuses_pred h hp, refuses_succ hsize hle' (by omega)])] at hok
    unfold takeRange at hok
    rw [ok_bind (takePred_skip h hp)] at hok
    obtain ⟨a1, h1, hok⟩ := bind_eq_ok hok
    obtain ⟨_, -, hok⟩ := bind_eq_ok hok
    cases hok
    refine ⟨rfl, (takeLoop_ok hs h hi hle' h1).imp (fun ⟨ha, hc⟩ => ⟨ha, fun j hj => ?_⟩)
      fun hc => ⟨i, rfl, hc⟩⟩
    cases hj
    refine hc.elim (fun hhi => hfirst _ ?_) id
    exact (lowerBound_eq_some.1 hhi).2.1

/-! ## Requests that must be free -/

theorem refuses_never (hb : addr + size < w64) (i : Item) :
    refuses addr size (addr + size) i = false := by
  unfold refuses
  by_cases hle : i.first ≤ addr
  · have hsub : ¬ sub64 (addr + size) i.first < size := by
      unfold sub64 w64 at *
      omega
    rw [decide_eq_false hsub, Bool.and_false]
  · rw [decide_eq_false hle, Bool.false_and, Bool.false_and]

theorem takeRange_true {a : Alloc} {fin : Nat} {loIt : Option Item} {pred : Item}
    (h : takeRange a addr fin loIt hiIt pred = .ok (b, a')) : b = true := by
  obtain ⟨a1, -, h⟩ := bind_eq_ok h
  cases loIt <;>
  · obtain ⟨a2, -, h⟩ := bind_eq_ok h
    obtain ⟨-, -, h⟩ := bind_eq_ok h
    cases h
    rfl

theorem takeLinear_true {a : Alloc} {requireFree : Bool} (hb : addr + size < w64)
    (h : takeLinear a addr size requireFree = .ok (b, a')) : b = true := by
  obtain ⟨-, -, h⟩ := bind_eq_ok h
  obtain ⟨-, -, h⟩ := bind_eq_ok h
  obtain ⟨-, -, h⟩ := bind_eq_ok h
  obtain ⟨-, -, h⟩ := bind_eq_ok h
  rw [if_neg (by simp [mod_eq_of_lt hb, refuses_never hb])] at h
  exact takeRange_true h

/-- What a caller that asks for free space relies on: an answer `true` only for a range that is
free, and an answer `false`, with nothing changed, for every other. -/
structure ExclusiveRight (a : Alloc) (addr size : Nat) : Prop where
  free : ∀ a', takeLinear a addr size true = .ok (true, a') →
    ∀ x, addr ≤ x → x < addr + size → Free a.freeAddrByAddr x
  refused : (∃ x, addr ≤ x ∧ x < addr + size ∧ ¬ Free a.freeAddrByAddr x) →
    takeLinear a addr size true = .ok (false, a)

/-- Nothing is ever refused. -/
theorem exclusive_right_iff {a : Alloc} (hb : addr + size < w64) : ExclusiveRight a addr size ↔
    ∀ x, addr ≤ x → x < addr + size → Free a.freeAddrByAddr x := by
  refine ⟨fun h x h1 h2 => by_contra fun hx => ?_, fun hall => ⟨fun _ _ => hall, ?_⟩⟩
  · cases takeLinear_true hb (h.refused ⟨x, h1, h2, hx⟩)
  · rintro ⟨x, h1, h2, hx⟩
    exact absurd (hall x h1 h2) hx

def twoFree : OrdSet Item := ((OrdSet.empty.insert ⟨10, 2⟩).1.insert ⟨100, 10⟩).1

def twoFreeAlloc : Alloc := ⟨swapSet twoFree, twoFree, 0, true⟩

theorem exclusive_right_inside : ExclusiveRight twoFreeAlloc 102 3 :=
  (exclusive_right_iff (by decide)).2 fun x h1 h2 =>
    ⟨⟨100, 10⟩, by simp [twoFreeAlloc, twoFree], by simp only; omega, by simp only; omega⟩

/-- Nothing between the two ranges is free, and the call answers that it was. -/
theorem held_space_granted : takeLinear twoFreeAlloc 20 10 true = .ok (true, twoFreeAlloc) ∧
    ∀ x, 20 ≤ x → x < 30 → ¬ Free twoFree x := by
  refine ⟨by decide, ?_⟩
  rintro x h1 h2 ⟨i, hi, h3, h4⟩
  simp only [twoFree, mem_insert, not_mem_empty, or_false] at hi
  rcases hi with rfl | rfl <;> simp only at h3 h4 <;> omega

end Dgos.L2.ContigAlloc
