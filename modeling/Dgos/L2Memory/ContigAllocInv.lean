import Dgos.L2Memory.ContigAlloc

/-!
# What the calls of `contiguous_allocator_t` do to the free ranges

`Sep s`: the ranges of `s` are non-empty, do not wrap, and lie apart with a gap between any
two. `Free s x`: the address `x` is in a range of `s`.

Results:
* `allocLinear_spec`: the call fails, without a change, exactly when no range is large enough;
  else the front of a range leaves the free ranges.
* `releaseLinear_spec`: a released range that was not free joins the free ranges, together
  with the neighbours it touches, and no assertion fails.
* `releaseNew_alone`: a range without touching neighbours is filed as it is.
-/
namespace Dgos.L2.ContigAlloc

/-! ## Free ranges -/

def Free (s : OrdSet Item) (x : Nat) : Prop := ∃ i ∈ s, i.first ≤ x ∧ x < i.first + i.second

structure Sep (s : OrdSet Item) : Prop where
  pos : ∀ i ∈ s, 0 < i.second
  bound : ∀ i ∈ s, i.first + i.second < w64
  apart : ∀ i ∈ s, ∀ j ∈ s, i ≠ j → i.first + i.second < j.first ∨ j.first + j.second < i.first

variable {s rest : OrdSet Item} {i range q : Item} {a : Alloc} {size addr x : Nat}
  {succIt : Option Item} {p : Prop}

theorem free_insert :
    Free (s.insert i).1 x ↔ (i.first ≤ x ∧ x < i.first + i.second) ∨ Free s x := by
  simp only [Free, OrdSet.mem_insert, or_and_right, exists_or, exists_eq_left]

theorem free_erase (hi : i ∈ s) :
    Free s x ↔ (i.first ≤ x ∧ x < i.first + i.second) ∨ Free (s.erase i) x := by
  simp only [Free, OrdSet.mem_erase]
  constructor
  · rintro ⟨j, hj, hx⟩
    by_cases e : j = i
    · exact .inl (e ▸ hx)
    · exact .inr ⟨j, ⟨e, hj⟩, hx⟩
  · rintro (hx | ⟨j, ⟨-, hj⟩, hx⟩)
    · exact ⟨i, hi, hx⟩
    · exact ⟨j, hj, hx⟩

namespace Sep

variable {j : Item}

theorem empty : Sep .empty := ⟨by simp, by simp, by simp⟩

theorem erase (h : Sep s) : Sep (s.erase i) where
  pos j hj := h.pos j (OrdSet.mem_erase.1 hj).2
  bound j hj := h.bound j (OrdSet.mem_erase.1 hj).2
  apart j hj k hk := h.apart j (OrdSet.mem_erase.1 hj).2 k (OrdSet.mem_erase.1 hk).2

theorem insert (h : Sep s) (hpos : 0 < i.second) (hb : i.first + i.second < w64)
    (hap : ∀ j ∈ s, j.first + j.second < i.first ∨ i.first + i.second < j.first) :
    Sep (s.insert i).1 where
  pos j hj := (OrdSet.mem_insert.1 hj).elim (fun e => e ▸ hpos) (h.pos j)
  bound j hj := (OrdSet.mem_insert.1 hj).elim (fun e => e ▸ hb) (h.bound j)
  apart j hj k hk hne := by
    rcases OrdSet.mem_insert.1 hj with rfl | hj'
    · exact (hap k ((OrdSet.mem_insert.1 hk).resolve_left hne.symm)).symm
    · rcases OrdSet.mem_insert.1 hk with rfl | hk'
      · exact hap j hj'
      · exact h.apart j hj' k hk' hne

theorem apart_part (h : Sep s) (hi : i ∈ s) (addr size : Nat) (h1 : i.first ≤ addr)
    (h2 : addr + size ≤ i.first + i.second) :
    ∀ j ∈ s.erase i, j.first + j.second < addr ∨ addr + size < j.first := by
  intro j hj
  obtain ⟨hne, hj⟩ := OrdSet.mem_erase.1 hj
  have := h.apart j hj i hi hne
  omega

theorem eq_of_interval {base : Nat} (h : Sep s)
    (hfree : ∀ x, Free s x ↔ base ≤ x ∧ x < base + size) (hi : i ∈ s) : i = ⟨base, size⟩ := by
  have hpos := h.pos i hi
  have hfirst := (hfree i.first).1 ⟨i, hi, le_rfl, by omega⟩
  have hlast := (hfree (i.first + i.second - 1)).1 ⟨i, hi, by omega, by omega⟩
  -- what lies next to a range is in a gap
  have hgap : ∀ x, x + 1 = i.first ∨ x = i.first + i.second → ¬ (base ≤ x ∧ x < base + size) := by
    intro x hx hf
    obtain ⟨j, hj, hxj⟩ := (hfree x).2 hf
    have := h.apart i hi j hj (by rintro rfl; omega)
    omega
  have hbeg := hgap (i.first - 1)
  have hend := hgap _ (.inr rfl)
  obtain ⟨first, second⟩ := i
  simp only [Item.mk.injEq] at *
  omega

theorem not_free_erase (h : Sep s) (hi : i ∈ s) (h1 : i.first ≤ x)
    (h2 : x < i.first + i.second) : ¬ Free (s.erase i) x := by
  rintro ⟨j, hj, hx⟩
  have := h.apart_part hi x 1 h1 (by omega) j hj
  omega

end Sep

theorem noOverlap_of_sep (h : Sep s) : noOverlap s.items = true := by
  have hall : ∀ l : List Item, l.Pairwise (· < ·) → (∀ i ∈ l, i ∈ s) → noOverlap l = true := by
    intro l
    induction l with
    | nil => intros; rfl
    | cons i l ih =>
      intro hl hs
      cases l with
      | nil => rfl
      | cons j l =>
        have hij : i < j := List.rel_of_pairwise_cons hl List.mem_cons_self
        have hi := hs i List.mem_cons_self
        have hj := hs j (List.mem_cons_of_mem _ List.mem_cons_self)
        have hap := h.apart i hi j hj hij.ne
        have hb := h.bound i hi
        rw [Item.lt_iff] at hij
        rw [noOverlap, ih hl.of_cons fun k hk => hs k (List.mem_cons_of_mem _ hk), Bool.and_true,
          decide_eq_true_eq, Nat.mod_eq_of_lt hb]
        omega
  exact hall s.items s.sorted fun _ hi => hi

/-- Both trees have the same ranges. -/
abbrev Alloc.Swapped (a : Alloc) : Prop := a.freeAddrBySize = swapSet a.freeAddrByAddr

theorem validateLocked_of_sep (hs : a.Swapped) (h : Sep a.freeAddrByAddr) :
    validateLocked a = true := by
  rw [validateLocked, noOverlap_of_sep h, hs, Bool.and_true, Bool.and_eq_true, List.all_eq_true,
    List.all_eq_true]
  exact ⟨fun i hi => decide_eq_true (mem_swapSet.2 hi),
    fun i hi => decide_eq_true (mem_swapSet.1 hi)⟩

/-! ## Sequencing -/

theorem assert_bind {β : Type} [Decidable p] (h : p) (f : Unit → Except Err β) :
    (assert p >>= f) = f () := by
  unfold assert
  rw [if_pos h]
  rfl

theorem assert_eq_ok [Decidable p] {u : Unit} (h : assert p = .ok u) : p := by
  unfold assert at h
  split at h
  · assumption
  · cases h

/-- The allocator with other free ranges, in both trees. -/
abbrev Alloc.withFree (a : Alloc) (s : OrdSet Item) : Alloc :=
  { a with freeAddrByAddr := s, freeAddrBySize := swapSet s }

theorem insertNodes_ok (hs : a.Swapped) (hi : i ∉ a.freeAddrByAddr) :
    insertNodes a i i.swap = .ok (a.withFree (a.freeAddrByAddr.insert i).1) := by
  have hi' : i.swap ∉ a.freeAddrBySize := by rw [hs, mem_swapSet]; exact hi
  unfold insertNodes
  rw [assert_bind hi, assert_bind hi', Alloc.withFree, swapSet_insert, hs]
  rfl

/-! ## `alloc_linear` -/

/-- The free ranges without the first `size` bytes of `i`. -/
def takeFront (s : OrdSet Item) (i : Item) (size : Nat) : OrdSet Item :=
  if size < i.second then ((s.erase i).insert ⟨i.first + size, i.second - size⟩).1 else s.erase i

theorem allocAt_ok (hs : a.Swapped) (h : Sep a.freeAddrByAddr) (hi : i ∈ a.freeAddrByAddr)
    (hsize : size ≤ i.second) :
    allocAt a size i.swap = .ok (i.first, a.withFree (takeFront a.freeAddrByAddr i size)) := by
  have hext : a.freeAddrByAddr.extract ⟨i.swap.second, i.swap.first⟩ =
      (some i, a.freeAddrByAddr.erase i) := if_pos hi
  have herase : a.freeAddrBySize.erase i.swap = swapSet (a.freeAddrByAddr.erase i) := by
    rw [swapSet_erase, hs]
  unfold allocAt takeFront
  rw [assert_bind (show size ≤ i.swap.first from hsize), hext]
  simp only
  rw [assert_bind (show i.swap.first = i.second from rfl),
    assert_bind (show i.first = i.swap.second from rfl)]
  by_cases hlt : size < i.second
  · have hb := h.bound i hi
    have hmod : (i.first + size) % w64 = i.first + size := Nat.mod_eq_of_lt (by omega)
    have hrest : (⟨i.first + size, i.second - size⟩ : Item) ∉ a.freeAddrByAddr.erase i := by
      intro hm
      have := h.apart_part hi (i.first + size) (i.second - size) (by omega) (by omega) _ hm
      simp only at this
      omega
    rw [if_pos (show size < i.swap.first from hlt), if_pos hlt]
    simp only [Item.swap, hmod]
    exact ok_bind (insertNodes_ok herase hrest) _
  · rw [if_neg (show ¬ size < i.swap.first from hlt), if_neg hlt]
    simp only [herase]
    rfl

theorem allocLinear_spec (hr : a.ready = true) (hs : a.Swapped)
    (h : Sep a.freeAddrByAddr) (hpage : size % pageSize = 0) :
    (allocLinear a size = .ok (0, a) ∧ ∀ i ∈ a.freeAddrByAddr, i.second < size) ∨
      ∃ i ∈ a.freeAddrByAddr, size ≤ i.second ∧
        allocLinear a size = .ok (i.first, a.withFree (takeFront a.freeAddrByAddr i size)) := by
  unfold allocLinear
  rw [assert_bind hpage, if_pos hr]
  cases hb : a.freeAddrBySize.lowerBound ⟨size, 0⟩ with
  | none =>
    refine .inl ⟨rfl, fun i hi => ?_⟩
    have hlt := OrdSet.lowerBound_eq_none.1 hb i.swap (by rw [hs, mem_swapSet]; exact hi)
    rw [Item.lt_iff] at hlt
    simp only [Item.swap] at hlt
    omega
  | some place =>
    obtain ⟨hm, hle, -⟩ := OrdSet.lowerBound_eq_some.1 hb
    rw [hs, mem_swapSet] at hm
    rw [Item.le_iff] at hle
    have hsize : size ≤ place.swap.second := by simp only [Item.swap] at *; omega
    exact .inr ⟨place.swap, hm, hsize, allocAt_ok hs h hm hsize⟩

theorem Sep.takeFront (h : Sep s) (hi : i ∈ s) : Sep (takeFront s i size) := by
  unfold ContigAlloc.takeFront
  split
  · have hb := h.bound i hi
    refine h.erase.insert ?_ ?_ (h.apart_part hi _ _ ?_ ?_) <;> simp only <;> omega
  · exact h.erase

/-- What was free is handed out or still free. -/
theorem free_takeFront (h : Sep s) (hi : i ∈ s) (hsize : size ≤ i.second) (x : Nat) :
    (Free (takeFront s i size) x ↔ Free s x ∧ ¬ (i.first ≤ x ∧ x < i.first + size)) := by
  have hnot := fun h1 h2 => h.not_free_erase (x := x) hi h1 h2
  rw [free_erase hi]
  unfold ContigAlloc.takeFront
  split
  · rw [free_insert]
    simp only
    constructor
    · rintro (hx | hx)
      · exact ⟨.inl (by omega), by omega⟩
      · exact ⟨.inr hx, fun hc => hnot hc.1 (by omega) hx⟩
    · rintro ⟨hx | hx, hc⟩
      · exact .inl (by omega)
      · exact .inr hx
  · constructor
    · exact fun hx => ⟨.inr hx, fun hc => hnot hc.1 (by omega) hx⟩
    · rintro ⟨hx | hx, hc⟩
      · omega
      · exact hx

/-! ## `release_linear` -/

namespace Release

variable {r r' : Release}

/-- The new range and the `rest` of the free ranges, whether the node is in the tree or in
`ins_node`. -/
structure Ok (r : Release) (rest : OrdSet Item) : Prop where
  ins : r.ins = ⟨r.addr, r.size⟩
  not_mem : r.ins ∉ rest
  byAddr : r.byAddr = if r.insNode then rest else (rest.insert r.ins).1
  bySize : r.bySize = swapSet r.byAddr
  node : r.insSizeNode = if r.insNode then some r.ins.swap else none

/-- The node out of the tree. -/
def out (r : Release) (rest : OrdSet Item) : Release :=
  { r with byAddr := rest, bySize := swapSet rest, insNode := true, insSizeNode := some r.ins.swap }

theorem setNodes_out (addr size fin : Nat) (hi : (⟨addr, size⟩ : Item) ∉ rest) :
    ∃ r', setNodes { r.out rest with addr, size, fin } = .ok r' ∧ r'.Ok rest ∧ r'.addr = addr ∧
      r'.size = size ∧ r'.fin = fin :=
  ⟨_, rfl, ⟨rfl, hi, rfl, rfl, rfl⟩, rfl, rfl, rfl⟩

/-- `merge_succ` stops at a range behind the end. -/
theorem mergeSucc_skip {fuel : Nat} (hf : 0 < fuel) {succ : Item} (h : r.fin < succ.first) :
    r.mergeSucc fuel (some succ) = .ok (r, some succ) := by
  obtain ⟨n, rfl⟩ := Nat.exists_eq_succ_of_ne_zero hf.ne'
  exact if_pos h

theorem extendEnd_skip (h : r.fin ≤ (r.addr + r.size) % w64) : r.extendEnd succIt = .ok r :=
  if_neg fun hc => by omega

section

variable (h : r.Ok rest)
include h

section

variable (hn : r.insNode = false)
include hn

theorem Ok.inserted : r.byAddr = (rest.insert r.ins).1 := by
  rw [h.byAddr, hn]
  rfl

theorem Ok.extractIns : r.extractIns = r.out rest := by
  have hb := h.inserted hn
  have he : r.byAddr.erase r.ins = rest := by rw [hb, OrdSet.erase_insert_self h.not_mem]
  have hm : r.ins.swap ∈ r.bySize := by
    rw [h.bySize, mem_swapSet, hb]; exact OrdSet.mem_insert.2 (.inl rfl)
  unfold Release.extractIns Release.out OrdSet.extract
  rw [if_pos hm, h.bySize, ← swapSet_erase, he]

end

theorem Ok.extractOnce : r.extractOnce = .ok (r.out rest) := by
  unfold Release.extractOnce
  cases hn : r.insNode with
  | true =>
    have hb : r.byAddr = rest := by rw [h.byAddr, hn]; rfl
    have hnode : r.insSizeNode = some r.ins.swap := by rw [h.node, hn]; rfl
    rw [if_pos rfl, Release.out, ← hn, ← hnode, ← hb, ← h.bySize]
    rfl
  | false =>
    simp only [h.extractIns hn]
    exact assert_bind rfl _

theorem Ok.eraseRange (hi : i ∈ rest) :
    ∃ r', r.eraseRange i = .ok r' ∧ r'.Ok (rest.erase i) ∧ r'.addr = r.addr ∧ r'.fin = r.fin ∧
      r'.insNode = r.insNode := by
  have hne : i ≠ r.ins := fun e => h.not_mem (e ▸ hi)
  have hm : i ∈ r.byAddr := by
    rw [h.byAddr]
    split
    · exact hi
    · exact OrdSet.mem_insert.2 (.inr hi)
  have hm' : i.swap ∈ r.bySize := by rw [h.bySize, mem_swapSet]; exact hm
  refine ⟨_, assert_bind hm' _, ⟨h.ins, fun hc => h.not_mem (OrdSet.mem_erase.1 hc).2, ?_, ?_,
    h.node⟩, rfl, rfl, rfl⟩
  · rw [h.byAddr]
    split
    · rfl
    refine OrdSet.ext fun j => ?_
    simp only [OrdSet.mem_erase, OrdSet.mem_insert]
    constructor
    · rintro ⟨hj, rfl | hj'⟩
      · exact .inl rfl
      · exact .inr ⟨hj, hj'⟩
    · rintro (rfl | ⟨hj, hj'⟩)
      · exact ⟨hne.symm, .inl rfl⟩
      · exact ⟨hj, .inr hj'⟩
  · rw [h.bySize, swapSet_erase]

/-- `merge_pred` when no range of the rest reaches up to the new one. -/
theorem Ok.mergePred_skip (hn : r.insNode = false)
    (hno : ∀ p ∈ rest, p < r.ins → (p.first + p.second) % w64 < r.addr) : r.mergePred = .ok r := by
  unfold Release.mergePred
  rw [h.inserted hn, OrdSet.prev_insert_self]
  cases hp : rest.prev r.ins with
  | none => rfl
  | some p =>
    obtain ⟨hm, hlt, -⟩ := OrdSet.prev_eq_some.1 hp
    exact if_neg fun hc => absurd (hno p hm hlt) (by omega)

/-- `merge_pred` when the predecessor ends where the new range starts. -/
theorem Ok.mergePred_join (hn : r.insNode = false) {p : Item} (hm : p ∈ rest)
    (hprev : rest.prev r.ins = some p) (hpos : 0 < p.second) (hend : p.first + p.second = r.addr)
    (hb : r.addr < w64) (hfin : r.addr ≤ r.fin)
    (hnew : (⟨p.first, sub64 r.fin p.first⟩ : Item) ∉ rest.erase p) :
    ∃ r', r.mergePred = .ok r' ∧ r'.Ok (rest.erase p) ∧ r'.addr = p.first ∧
      r'.size = sub64 r.fin p.first ∧ r'.fin = r.fin := by
  have hpe : (p.first + p.second) % w64 = r.addr := by rw [hend, Nat.mod_eq_of_lt hb]
  obtain ⟨r1, he, h1, -, hf1, hn1⟩ := h.eraseRange hm
  obtain ⟨r2, hs, h2⟩ := setNodes_out p.first (sub64 r.fin p.first) r.fin hnew
  refine ⟨r2, ?_, h2⟩
  unfold Release.mergePred
  rw [h.inserted hn, OrdSet.prev_insert_self, hprev]
  simp only [hpe]
  rw [if_pos ⟨by omega, le_rfl⟩, if_neg (by omega), ok_bind he, h1.extractIns (hn1.trans hn)]
  exact hs

/-- `merge_succ` takes in the successor that starts at the end. -/
theorem Ok.mergeSucc_join (fuel : Nat) (hm : q ∈ rest) (hq : q.first ≤ r.fin)
    (hnew : (⟨r.addr, sub64 ((q.first + q.second) % w64) r.addr⟩ : Item) ∉ rest.erase q) :
    ∃ r' : Release, r.mergeSucc (fuel + 1) (some q) = r'.mergeSucc fuel (r.byAddr.next q) ∧
      r'.Ok (rest.erase q) ∧ r'.addr = r.addr ∧
      r'.size = sub64 ((q.first + q.second) % w64) r.addr ∧ r'.fin = r.fin := by
  obtain ⟨r1, he, h1, ha1, hf1, -⟩ := h.eraseRange hm
  obtain ⟨r2, hs, h2, ha2, hs2, hf2⟩ := setNodes_out r.addr
    (sub64 ((q.first + q.second) % w64) r.addr) r.fin hnew
  refine ⟨r2, ?_, h2, ha2, hs2, hf2⟩
  rw [Release.mergeSucc, if_neg (by omega)]
  rw [ok_bind he, ok_bind h1.extractOnce]
  have hout : ({ r1.out (rest.erase q) with
      size := sub64 ((q.first + q.second) % w64) (r1.out (rest.erase q)).addr } : Release) =
      { r1.out (rest.erase q) with
        addr := r.addr, size := sub64 ((q.first + q.second) % w64) r.addr, fin := r.fin } := by
    rw [← ha1, ← hf1]; rfl
  rw [hout, ok_bind hs]

theorem Ok.reinsert (a : Alloc) :
    r.reinsert a = .ok (a.withFree (rest.insert ⟨r.addr, r.size⟩).1) := by
  unfold Release.reinsert
  rw [← h.ins, h.node, h.bySize]
  cases hn : r.insNode with
  | true =>
    have hb : r.byAddr = rest := by rw [h.byAddr, hn]; rfl
    simp only [hb, if_true]
    exact insertNodes_ok rfl h.not_mem
  | false =>
    rw [h.inserted hn]
    rfl

end

theorem start_ok {a : Alloc} (hs : a.Swapped)
    (hr : range ∉ a.freeAddrByAddr) : (start a range).Ok a.freeAddrByAddr :=
  ⟨rfl, hr, rfl, by rw [start, swapSet_insert, hs], rfl⟩

end Release

open Release OrdSet Nat

/-- The range that the merges leave, and the rest, are the free ranges afterwards. -/
theorem releaseNew_of (hs : a.Swapped) (hr : range ∉ a.freeAddrByAddr)
    {r1 r2 : Release} (h1 : (start a range).mergePred = .ok r1)
    (h2 : r1.mergeSucc (a.freeAddrByAddr.size + 1) (a.freeAddrByAddr.next range) = .ok (r2, succIt))
    (hok : r2.Ok rest) (hfin : r2.fin ≤ (r2.addr + r2.size) % w64) :
    releaseNew a range = .ok (a.withFree (rest.insert ⟨r2.addr, r2.size⟩).1) := by
  have hr' : range.swap ∉ a.freeAddrBySize := by rw [hs, mem_swapSet]; exact hr
  have hi := hok.ins
  unfold releaseNew
  simp only
  rw [assert_bind hr', show (start a range).byAddr = (a.freeAddrByAddr.insert range).1 from rfl,
    next_insert_self]
  rw [ok_bind h1, ok_bind h2, ok_bind (extendEnd_skip hfin), assert_bind (by rw [hi]),
    assert_bind (by rw [hi]), ok_bind (hok.reinsert a)]
  exact assert_bind size_swapSet.symm _

theorem releaseNew_alone (hs : a.Swapped) (hr : range ∉ a.freeAddrByAddr)
    (hpred : ∀ p ∈ a.freeAddrByAddr, p < range → (p.first + p.second) % w64 < range.first)
    (hsucc : ∀ q ∈ a.freeAddrByAddr, range < q → (range.first + range.second) % w64 < q.first) :
    releaseNew a range = .ok (a.withFree (a.freeAddrByAddr.insert range).1) := by
  have hok := start_ok hs hr
  have h1 := hok.mergePred_skip rfl hpred
  cases hn : a.freeAddrByAddr.next range with
  | none =>
    have h2 : (start a range).mergeSucc (a.freeAddrByAddr.size + 1) none =
        .ok (start a range, none) := by rfl
    exact releaseNew_of hs hr h1 (hn ▸ h2) hok le_rfl
  | some q =>
    obtain ⟨hq, hlt, -⟩ := next_eq_some.1 hn
    exact releaseNew_of hs hr h1
      (by rw [hn]; exact mergeSucc_skip (succ_pos _) (hsucc q hq hlt)) hok le_rfl

/-- Released space that is not free and does not wrap. -/
structure Releasable (s : OrdSet Item) (addr size : Nat) : Prop where
  pos : 0 < size
  bound : addr + size < w64
  apart : ∀ i ∈ s, i.first + i.second ≤ addr ∨ addr + size ≤ i.first

theorem sub64_eq {a b : Nat} (h : b ≤ a) (ha : a < w64) : sub64 a b = a - b := by
  have : a + w64 - b = a - b + w64 := by omega
  rw [sub64, this, add_mod_right, Nat.mod_eq_of_lt (by omega)]

/-- While a range of `s` is released: the node covers the released space from `r.addr` on,
and the ranges of the rest below it lie apart. -/
structure Merging (s : OrdSet Item) (addr size : Nat) (r : Release) (rest : OrdSet Item) : Prop where
  ok : r.Ok rest
  fin : r.fin = addr + size
  addr_le : r.addr ≤ addr
  size_eq : r.addr + r.size = addr + size
  sep : Sep rest
  apart : ∀ i ∈ rest, i.first + i.second < r.addr ∨ addr + size ≤ i.first
  above : ∀ i ∈ s, addr + size ≤ i.first → i ∈ rest
  sub : ∀ i ∈ rest, i ∈ s
  free : ∀ x, Free s x ∨ (addr ≤ x ∧ x < addr + size) ↔ Free rest x ∨ (r.addr ≤ x ∧ x < addr + size)

/-- The predecessor is taken in when it touches the released range. -/
theorem mergePred_spec (hs : a.Swapped) (h : Sep a.freeAddrByAddr)
    (hrel : Releasable a.freeAddrByAddr addr size) (hr : (⟨addr, size⟩ : Item) ∉ a.freeAddrByAddr) :
    ∃ r rest, (start a ⟨addr, size⟩).mergePred = .ok r ∧
      Merging a.freeAddrByAddr addr size r rest := by
  have hok := start_ok hs hr
  have hfin : (start a ⟨addr, size⟩).fin = addr + size := Nat.mod_eq_of_lt hrel.bound
  have hb := hrel.bound
  by_cases htouch : ∃ p ∈ a.freeAddrByAddr, p.first + p.second = addr
  · obtain ⟨p, hp, hend⟩ := htouch
    have hppos := h.pos p hp
    have hprev : a.freeAddrByAddr.prev ⟨addr, size⟩ = some p := by
      refine OrdSet.prev_eq_some.2 ⟨hp, Item.lt_iff.2 (.inl (by simp only; omega)), fun j hj hlt => ?_⟩
      by_contra hc
      have hpj := lt_of_not_ge hc
      have hap := h.apart j hj p hp (ne_of_gt hpj)
      rw [Item.lt_iff] at hpj hlt
      simp only at hlt
      omega
    have hpart := h.apart_part hp p.first p.second le_rfl le_rfl
    have hsub : sub64 (addr + size) p.first = addr + size - p.first := sub64_eq (by omega) hb
    have hnew : (⟨p.first, sub64 (addr + size) p.first⟩ : Item) ∉ a.freeAddrByAddr.erase p := by
      intro hm
      have := hpart _ hm
      simp only at this
      omega
    obtain ⟨r, hm, hr1, ha1, hs1, hf1⟩ := hok.mergePred_join rfl hp hprev hppos hend
      (show addr < w64 by omega) (by rw [hfin]; exact le_add_right _ _) (by rw [hfin]; exact hnew)
    rw [hfin] at hs1 hf1
    refine ⟨r, _, hm, hr1, hf1, by omega, by omega, h.erase, fun i hi => ?_,
      fun i hi hle => OrdSet.mem_erase.2 ⟨fun e => by subst e; omega, hi⟩,
      fun i hi => (OrdSet.mem_erase.1 hi).2, fun x => ?_⟩
    · have h1 := hpart i hi
      have h2 := hrel.apart i (OrdSet.mem_erase.1 hi).2
      omega
    · rw [free_erase hp]
      constructor
      · rintro ((hx | hx) | hx)
        · exact .inr (by omega)
        · exact .inl hx
        · exact .inr (by omega)
      · rintro (hx | hx)
        · exact .inl (.inr hx)
        · rcases lt_or_ge x addr with hlt | hge
          · exact .inl (.inl (by omega))
          · exact .inr (by omega)
  · have hstrict : ∀ i ∈ a.freeAddrByAddr, i.first + i.second < addr ∨ addr + size ≤ i.first :=
      fun i hi => by
        have := hrel.apart i hi
        have : i.first + i.second ≠ addr := fun e => htouch ⟨i, hi, e⟩
        omega
    refine ⟨_, _, hok.mergePred_skip rfl fun p hp hlt => ?_, hok, hfin, le_rfl, rfl, h, hstrict,
      fun i hi _ => hi, fun i hi => hi, fun x => Iff.rfl⟩
    have := hstrict p hp
    have hpb := h.bound p hp
    rw [Nat.mod_eq_of_lt hpb]
    rw [Item.lt_iff] at hlt
    simp only [start] at hlt ⊢
    omega

/-- The node and the rest when all merges are done. -/
structure Merged (s : OrdSet Item) (addr size : Nat) (r : Release) (rest : OrdSet Item) : Prop where
  ok : r.Ok rest
  fin_le : r.fin ≤ r.addr + r.size
  bound : r.addr + r.size < w64
  sep : Sep (rest.insert ⟨r.addr, r.size⟩).1
  free : ∀ x, Free (rest.insert ⟨r.addr, r.size⟩).1 x ↔ Free s x ∨ (addr ≤ x ∧ x < addr + size)

theorem Merging.merged {r : Release}
    (hm : Merging s addr size r rest) (hpos : 0 < size) (hb : addr + size < w64)
    (hno : ∀ q ∈ s, q.first ≠ addr + size) : Merged s addr size r rest := by
  have ha := hm.addr_le
  have hsz := hm.size_eq
  refine ⟨hm.ok, by rw [hm.fin]; omega, by omega, hm.sep.insert ?_ ?_ fun i hi => ?_, fun x => ?_⟩
  · simp only; omega
  · simp only; omega
  · have h1 := hm.apart i hi
    have h2 := hno i (hm.sub i hi)
    simp only; omega
  · rw [free_insert, hm.free x, or_comm]
    rw [hsz]

/-- The first free range above the released one. -/
theorem Releasable.next_le (hrel : Releasable s addr size) (hq : q ∈ s)
    (hlt : (⟨addr, size⟩ : Item) < q) : addr + size ≤ q.first := by
  have := hrel.apart q hq
  rw [Item.lt_iff] at hlt
  simp only at hlt
  omega

theorem mergeSucc_none (r : Release) (fuel : Nat) : r.mergeSucc fuel none = .ok (r, none) := by
  unfold mergeSucc; rfl

/-- The successor is taken in when it touches the released range. -/
theorem mergeSucc_spec (h : Sep a.freeAddrByAddr) (hrel : Releasable a.freeAddrByAddr addr size)
    {r : Release} (hm : Merging a.freeAddrByAddr addr size r rest) :
    ∃ r' it rest', r.mergeSucc (a.freeAddrByAddr.size + 1)
        (a.freeAddrByAddr.next ⟨addr, size⟩) = .ok (r', it) ∧
      Merged a.freeAddrByAddr addr size r' rest' := by
  have hpos := hrel.pos
  have hb := hrel.bound
  have ha := hm.addr_le
  by_cases htouch : ∃ q ∈ a.freeAddrByAddr, q.first = addr + size
  · obtain ⟨q, hq, hfirst⟩ := htouch
    have hqb := h.bound q hq
    have hqr := hm.above q hq (by omega)
    have hnext : a.freeAddrByAddr.next ⟨addr, size⟩ = some q := by
      refine next_eq_some.2 ⟨hq, Item.lt_iff.2 (.inl (by simp only; omega)), fun j hj hlt => ?_⟩
      by_contra hc
      have hjq := lt_of_not_ge hc
      have hap := h.apart j hj q hq (ne_of_lt hjq)
      have hjn := hrel.next_le hj hlt
      rw [Item.lt_iff] at hjq
      omega
    have hend : (q.first + q.second) % w64 = q.first + q.second := Nat.mod_eq_of_lt hqb
    have hsub : sub64 (q.first + q.second) r.addr = q.first + q.second - r.addr :=
      sub64_eq (by omega) hqb
    have hapart : ∀ i ∈ rest.erase q, i.first + i.second < r.addr ∨
        q.first + q.second < i.first := by
      intro i hi
      obtain ⟨hne, hi⟩ := OrdSet.mem_erase.1 hi
      have h1 := hm.apart i hi
      have h2 := h.apart i (hm.sub i hi) q hq hne
      omega
    have hnew : (⟨r.addr, sub64 ((q.first + q.second) % w64) r.addr⟩ : Item) ∉ rest.erase q := by
      intro hmem
      have := hapart _ hmem
      simp only at this
      omega
    obtain ⟨r', hjoin, hok, ha', hs', hf'⟩ := hm.ok.mergeSucc_join
      a.freeAddrByAddr.size hqr (by rw [hm.fin]; omega) hnew
    rw [hend] at hs'
    have hstop : ∃ it, r'.mergeSucc a.freeAddrByAddr.size (r.byAddr.next q) = .ok (r', it) := by
      cases hn : r.byAddr.next q with
      | none => exact ⟨none, mergeSucc_none r' _⟩
      | some q' =>
        obtain ⟨hq', hlt, -⟩ := next_eq_some.1 hn
        have hne : q' ≠ r.ins := by
          rintro rfl
          rw [Item.lt_iff, hm.ok.ins] at hlt
          simp only at hlt
          omega
        have hq'r : q' ∈ rest := by
          rw [hm.ok.byAddr] at hq'
          split at hq'
          · exact hq'
          · exact (OrdSet.mem_insert.1 hq').resolve_left hne
        have hap := hapart q' (OrdSet.mem_erase.2 ⟨ne_of_gt hlt, hq'r⟩)
        rw [Item.lt_iff] at hlt
        have hsize : 0 < a.freeAddrByAddr.size := List.length_pos_of_mem hq
        refine ⟨_, mergeSucc_skip hsize ?_⟩
        rw [hf', hm.fin]
        omega
    obtain ⟨it, hstop⟩ := hstop
    have hsum : r'.addr + r'.size = q.first + q.second := by omega
    refine ⟨r', it, _, by rw [hnext, hjoin, hstop], hok, ?_, by omega,
      hm.sep.erase.insert ?_ ?_ fun i hi => ?_, fun x => ?_⟩
    · rw [hf', hm.fin]; omega
    · simp only; omega
    · simp only; omega
    · have := hapart i hi
      simp only; omega
    · rw [free_insert, hm.free x, free_erase hqr]
      simp only
      rw [hsum, ha']
      constructor
      · rintro (hx | hx)
        · rcases lt_or_ge x (addr + size) with hlt | hge
          · exact .inr ⟨hx.1, hlt⟩
          · exact .inl (.inl ⟨by omega, hx.2⟩)
        · exact .inl (.inr hx)
      · rintro ((hx | hx) | hx)
        · exact .inl (by omega)
        · exact .inr hx
        · exact .inl (by omega)
  · have hno : ∀ q ∈ a.freeAddrByAddr, q.first ≠ addr + size := fun q hq e => htouch ⟨q, hq, e⟩
    have hdone := hm.merged hpos hb hno
    cases hn : a.freeAddrByAddr.next ⟨addr, size⟩ with
    | none => exact ⟨r, none, rest, mergeSucc_none r _, hdone⟩
    | some q =>
      obtain ⟨hq, hlt, -⟩ := next_eq_some.1 hn
      have h1 := hrel.next_le hq hlt
      have h2 := hno q hq
      exact ⟨r, _, rest, mergeSucc_skip (succ_pos _) (by rw [hm.fin]; omega), hdone⟩

theorem releaseLinear_spec (hs : a.Swapped) (h : Sep a.freeAddrByAddr)
    (hrel : Releasable a.freeAddrByAddr addr size) :
    ∃ s, releaseLinear a addr size = .ok (a.withFree s) ∧
      Sep s ∧ ∀ x, Free s x ↔ Free a.freeAddrByAddr x ∨ (addr ≤ x ∧ x < addr + size) := by
  have hr : (⟨addr, size⟩ : Item) ∉ a.freeAddrByAddr := fun hm => by
    have h1 := hrel.apart _ hm
    have h2 := hrel.pos
    simp only at h1
    omega
  obtain ⟨r, rest, h1, hm⟩ := mergePred_spec hs h hrel hr
  obtain ⟨r', it, rest', h2, hd⟩ := mergeSucc_spec h hrel hm
  refine ⟨_, ?_, hd.sep, hd.free⟩
  unfold releaseLinear
  rw [assert_bind (by rw [hs, size_swapSet]), if_neg hr]
  exact releaseNew_of hs hr h1 h2 hd.ok (by rw [Nat.mod_eq_of_lt hd.bound]; exact hd.fin_le)

end Dgos.L2.ContigAlloc
