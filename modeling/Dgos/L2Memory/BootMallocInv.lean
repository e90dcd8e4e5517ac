import Dgos.L2Memory.BootMalloc

/-!
# The invariant of the bootloader heap

`Inv w h bs` says that the headers in memory are those of the blocks `bs`, laid end to end
from `heap_st` to the sentinel at `heap_en`, and that the rover `first_free` points at one
of them with only USED blocks in front of it.

Results:
* `mallocAligned_spec`: the walk ends without a panic, and either hands out a new block or
  finds that no run of FREE blocks has room.
* `free_spec`: `free` of a USED block.
* `validate_of_inv`: `malloc_validate` accepts every heap with the invariant.
-/
namespace Dgos.L2.BootMalloc

open Blk List Function Nat BlkHdr
open Nat (mod_eq_of_lt)

/-! ## Headers of blocks -/

/-- The header of a valid block at `a`. -/
def mkHdr (a : Nat) (b : Blk) : BlkHdr :=
  ⟨b.size, if b.used then usedSig else freeSig, (2 ^ 32 - b.size) % 2 ^ 32, a % 2 ^ 32⟩

variable {a s w n al y : Nat} {b : Blk} {h h₁ h₂ h' : Heap} {bs rest done pre mid todo : List Blk}
  {U : List Range} {F : Nat → Prop}

theorem mkHdr_setSize (hs : s < 2 ^ 32) : (mkHdr a b).setSize s = mkHdr a ⟨s, b.used⟩ := by
  simp only [mkHdr, setSize, mod_eq_of_lt hs]

theorem makeFree_eq (x : BlkHdr) (hs : s < 2 ^ 32) : x.makeFree a s = mkHdr a ⟨s, false⟩ := by
  simp only [mkHdr, makeFree, setSize, makeValid, mod_eq_of_lt hs, Bool.false_eq_true, if_false]

theorem mkHdr_valid (hs : b.size < 2 ^ 32) : (mkHdr a b).invalid a = false := by
  have : (b.size + (2 ^ 32 - b.size) % 2 ^ 32) % 2 ^ 32 = 0 := by omega
  simp only [invalid, mkHdr, this]
  simp

@[simp] theorem mkHdr_size : (mkHdr a b).size = b.size := rfl

theorem mkHdr_free : (mkHdr a b).sig = freeSig ↔ b.used = false := by
  cases h : b.used <;> simp [mkHdr, h, freeSig, usedSig]

theorem mkHdr_used : (mkHdr a b).sig = usedSig ↔ b.used = true := by
  cases h : b.used <;> simp [mkHdr, h, freeSig, usedSig]

/-! ## Layout -/

/-- The headers of the blocks `bs` from `a` to `e`. -/
def Layout (m : Nat → BlkHdr) : Nat → List Blk → Nat → Prop
  | a, [], e => a = e
  | a, b :: bs, e => m a = mkHdr a b ∧ 0 < b.size ∧ b.size % 16 = 0 ∧ Layout m (a + b.size) bs e

namespace Layout

variable {m m' : Nat → BlkHdr} {e : Nat} {cs : List Blk}

theorem end_eq (h : Layout m a bs e) : e = a + total bs := by
  induction bs generalizing a with
  | nil => exact h.symm
  | cons b bs ih => rw [ih h.2.2.2, total_cons, add_assoc]

theorem append_iff : Layout m a (bs ++ cs) e ↔
    Layout m a bs (a + total bs) ∧ Layout m (a + total bs) cs e := by
  induction bs generalizing a with
  | nil => simp [Layout]
  | cons b bs ih => simp [Layout, ih, total_cons, add_assoc, and_assoc]

theorem frame (h : Layout m a bs e) (hm : ∀ x, a ≤ x → x < e → m' x = m x) : Layout m' a bs e := by
  induction bs generalizing a with
  | nil => exact h
  | cons b bs ih =>
    have he := h.end_eq
    obtain ⟨hb, hpos, h16, ht⟩ := h
    rw [total_cons] at he
    refine ⟨by rw [hm a le_rfl (by omega)]; exact hb, hpos, h16, ?_⟩
    exact ih ht fun x hx hxe => hm x (by omega) hxe

theorem total_mod (h : Layout m a bs e) : total bs % 16 = 0 := by
  induction bs generalizing a with
  | nil => rfl
  | cons b bs ih =>
    have := ih h.2.2.2
    have := h.2.2.1
    rw [total_cons]; omega

theorem split {x y b : Blk} (h : Layout m a (b :: bs) e) (hxy : x.size + y.size = b.size)
    (hx : 0 < x.size) (hy : 0 < y.size) (h16 : x.size % 16 = 0) :
    Layout (update (update m (a + x.size) (mkHdr (a + x.size) y)) a (mkHdr a x)) a
      (x :: y :: bs) e := by
  obtain ⟨-, -, hb16, ht⟩ := h
  refine ⟨update_self _ _ _, hx, h16, ?_, hy, by omega, ?_⟩
  · rw [update_of_ne (by omega), update_self]
  · rw [add_assoc, hxy]
    refine ht.frame fun z hz _ => ?_
    rw [update_of_ne (by omega), update_of_ne (by omega)]

theorem length_le (h : Layout m a bs e) : bs.length * 16 ≤ total bs := by
  induction bs generalizing a with
  | nil => simp
  | cons b bs ih =>
    have h1 := ih h.2.2.2
    obtain ⟨-, hpos, h16, -⟩ := h
    rw [total_cons, length_cons]; omega

end Layout

/-! ## The invariant -/

structure Inv (w : Nat) (h : Heap) (bs : List Blk) : Prop where
  st16 : h.heapSt % 16 = 0
  layout : Layout h.hdr h.heapSt bs h.heapEn
  sentinel : h.hdr h.heapEn = mkHdr h.heapEn ⟨0, true⟩
  top : h.heapEn + 16 ≤ 2 ^ w
  small : total bs < 2 ^ 32
  first : ∃ pre cur, bs = pre ++ cur ∧ cur ≠ [] ∧ (∀ b ∈ pre, b.used = true) ∧
    h.firstFree = h.heapSt + total pre

theorem Inv.fuel_lt (hi : Inv w h bs) : bs.length + 1 < h.fuel := by
  have h1 := hi.layout.length_le
  have h2 := hi.layout.end_eq
  unfold Heap.fuel
  omega

theorem sub_mod_two_pow (hn : n ≤ s) (hs : s - n < 2 ^ w) : (s + 2 ^ w - n) % 2 ^ w = s - n := by
  rw [Nat.sub_add_comm hn, Nat.add_mod_right, mod_eq_of_lt hs]

/-- `next_blk` in front of the sentinel does not wrap. -/
theorem nextBlk_eq (hb : h.hdr a = mkHdr a b)
    (hw : a + b.size < 2 ^ w) : nextBlk w h a = a + b.size := by
  unfold nextBlk
  rw [hb, mkHdr_size, mod_eq_of_lt hw]

/-! ## Merging -/

/-- The fields that `coalesce` does not write. -/
structure SameEnds (h h' : Heap) : Prop where
  st : h'.heapSt = h.heapSt
  en : h'.heapEn = h.heapEn

theorem SameEnds.refl (h : Heap) : SameEnds h h := ⟨rfl, rfl⟩

theorem SameEnds.trans {h₃ : Heap} (h : SameEnds h₁ h₂) (h' : SameEnds h₂ h₃) :
    SameEnds h₁ h₃ := ⟨h'.1.trans h.1, h'.2.trans h.2⟩

/-- Merging the run `fs` of FREE blocks into the FREE block in front of it. -/
theorem coalesce_spec (fs : List Blk) : ∀ (fuel : Nat) (h : Heap) (a s e : Nat)
    (rest : List Blk), Layout h.hdr a (⟨s, false⟩ :: (fs ++ rest)) e →
    (∀ b ∈ fs, b.used = false) → (h.hdr (a + s + total fs)).sig ≠ freeSig → h.firstFree ≤ a →
    fs.length < fuel → s + total fs < 2 ^ 32 → e < 2 ^ w →
    ∃ h', coalesce w fuel h a (a + s) = some (h', a + s + total fs) ∧
      Layout h'.hdr a (⟨s + total fs, false⟩ :: rest) e ∧
      (∀ x, x < a ∨ a + s + total fs ≤ x → h'.hdr x = h.hdr x) ∧
      h'.firstFree = h.firstFree ∧ SameEnds h h' := by
  induction fs with
  | nil =>
    intro fuel h a s e rest hl _ hsig _ hfuel _ _
    obtain _ | fuel := fuel
    · omega
    refine ⟨h, ?_, hl, fun _ _ => rfl, rfl, .refl h⟩
    rw [coalesce, if_neg fun hc => hsig hc.2]
    rfl
  | cons f fs ih =>
    intro fuel h a s e rest hl hfree hsig hff hfuel hsz hw
    obtain _ | fuel := fuel
    · omega
    have hend := hl.end_eq
    obtain ⟨ha, hs0, hs16, hf, hf0, hf16, ht⟩ := hl
    have hfu := hfree f mem_cons_self
    simp only [total_cons, total_append, length_cons] at hsz hend hfuel ⊢
    simp only at hs0 hs16 ht
    -- the state after one pass: `f` is absorbed
    have hne : a + s ≠ a := by omega
    have hat : (absorb w h a (a + s)).hdr a = mkHdr a ⟨s + f.size, false⟩ := by
      simp only [absorb, Heap.set, update_of_ne hne.symm, update_self, ha, hf, mkHdr_size]
      rw [mkHdr_setSize (by omega)]
    have hother : ∀ x ≠ a, x ≠ a + s → (absorb w h a (a + s)).hdr x = h.hdr x := by
      intro x hx hx'
      simp [absorb, Heap.set, update_of_ne hx', update_of_ne hx]
    have hff' : (absorb w h a (a + s)).firstFree = h.firstFree :=
      if_neg (by show h.firstFree ≠ a + s; omega)
    have hl' : Layout (absorb w h a (a + s)).hdr a (⟨s + f.size, false⟩ :: (fs ++ rest)) e := by
      refine ⟨hat, by simp only; omega, by simp only; omega, ?_⟩
      rw [← add_assoc]
      exact ht.frame fun x hx _ => hother x (by omega) (by omega)
    obtain ⟨h', he, hl2, hfr, hff2, hse⟩ := ih fuel (absorb w h a (a + s)) a (s + f.size) e rest hl'
      (fun b hb => hfree b (mem_cons_of_mem f hb))
      (by rw [hother _ (by omega) (by omega), ← add_assoc, add_assoc (a + s)]; exact hsig)
      (by rw [hff']; exact hff) (by omega) (by omega) hw
    refine ⟨h', ?_, ?_, fun x hx => ?_, hff2.trans hff', ⟨hse.st, hse.en⟩⟩
    · have hboth : (h.hdr a).sig = freeSig ∧ (h.hdr (a + s)).sig = freeSig := by
        rw [ha, hf]; exact ⟨mkHdr_free.2 rfl, mkHdr_free.2 hfu⟩
      rw [coalesce, if_pos hboth, nextBlk_eq hat (by simp only; omega), he]
      simp [add_assoc]
    · rw [← add_assoc]; exact hl2
    · rw [hfr x (by omega), hother x (by omega) (by omega)]

theorem coalesce_used {fuel : Nat} {next : Nat} (hf : 0 < fuel)
    (hs : (h.hdr a).sig ≠ freeSig) : coalesce w fuel h a next = some (h, next) := by
  obtain _ | fuel := fuel
  · omega
  rw [coalesce, if_neg fun hc => hs hc.1]

theorem exists_run (bs : List Blk) : ∃ fs rest, bs = fs ++ rest ∧ (∀ b ∈ fs, b.used = false) ∧
    ∀ b ∈ rest.head?, b.used = true := by
  refine ⟨bs.takeWhile (!·.used), bs.dropWhile (!·.used), by simp, fun b hb => ?_, fun b hb => ?_⟩
  · simpa using mem_takeWhile_imp hb
  · simpa [Option.mem_def.1 hb] using head?_dropWhile_not (!·.used) bs

/-! ## Splitting -/

/-- A FREE block, unless it is empty. -/
def pad (n : Nat) : List Blk := if n = 0 then [] else [⟨n, false⟩]

@[simp] theorem total_pad (n : Nat) : total (pad n) = n := by
  unfold pad; split <;> simp_all

theorem pad_free : ∀ b ∈ pad n, b.used = false := by
  unfold pad; split <;> simp

open Layout

theorem splitAligned_spec {adj e : Nat}
    (hl : Layout h.hdr a (⟨s, false⟩ :: rest) e) (hadj : adj < s) (h16 : adj % 16 = 0)
    (hs : s < 2 ^ 32) (hw : e < 2 ^ w) (hff : h.firstFree ≤ a) :
    (splitAligned w h a adj).2 = a + adj ∧
    Layout (splitAligned w h a adj).1.hdr a (pad adj ++ ⟨s - adj, false⟩ :: rest) e ∧
    (∀ x, x < a ∨ a + s ≤ x → (splitAligned w h a adj).1.hdr x = h.hdr x) ∧
    (splitAligned w h a adj).1.firstFree = h.firstFree ∧ SameEnds h (splitAligned w h a adj).1 := by
  have hend := hl.end_eq
  simp only [total_cons] at hend
  unfold splitAligned
  by_cases h0 : adj = 0
  · subst h0
    simp only [if_true, pad, nil_append, Nat.sub_zero, add_zero, true_and]
    exact ⟨hl, fun _ _ => trivial, .refl h⟩
  · have ha := hl.1
    have hx : (a + adj) % 2 ^ w = a + adj := mod_eq_of_lt (by omega)
    have hsz : (s + 2 ^ w - adj) % 2 ^ w = s - adj := sub_mod_two_pow (by omega) (by omega)
    have hne : a ≠ a + adj := by omega
    simp only [if_neg h0, hx, pad, Heap.set, ha, mkHdr_size, hsz,
      makeFree_eq _ (by omega : s - adj < 2 ^ 32), update_of_ne hne,
      mkHdr_setSize (by omega : adj < 2 ^ 32), cons_append, nil_append]
    refine ⟨trivial, ?_, fun x hx => ?_, if_neg (by omega), ⟨rfl, rfl⟩⟩
    · exact @split _ _ _ _ ⟨adj, false⟩ ⟨s - adj, false⟩ _ hl (by simp only; omega)
        (by simp only; omega) (by simp only; omega) h16
    · rw [update_of_ne (by omega), update_of_ne (by omega)]

theorem carve_spec {e : Nat} (hl : Layout h.hdr a (⟨s, false⟩ :: rest) e) (hn : 0 < n) (hns : n ≤ s)
    (h16 : n % 16 = 0) (hs : s < 2 ^ 32) (hw : e < 2 ^ w) :
    Layout (carve w h a n).hdr a (⟨n, true⟩ :: (pad (s - n) ++ rest)) e ∧
    (∀ x, x < a ∨ a + s ≤ x → (carve w h a n).hdr x = h.hdr x) ∧
    (carve w h a n).firstFree = h.firstFree ∧ SameEnds h (carve w h a n) := by
  have hend := hl.end_eq
  simp only [total_cons] at hend
  have ha := hl.1
  have hsz : (s + 2 ^ w - n) % 2 ^ w = s - n := sub_mod_two_pow hns (by omega)
  have hne : a ≠ a + n := by omega
  have hused : ∀ {b : BlkHdr}, b = mkHdr a ⟨s, false⟩ →
      { b.setSize n with sig := usedSig } = mkHdr a ⟨n, true⟩ := by
    rintro b rfl
    rw [mkHdr_setSize (by omega)]
    rfl
  unfold carve
  simp only [ha, mkHdr_size, hsz]
  by_cases h0 : s - n = 0
  · have hsn : s = n := by omega
    simp only [if_pos h0, pad, nil_append, Heap.set, ha, hused rfl]
    refine ⟨⟨update_self _ _ _, hn, h16, ?_⟩, fun x hx => ?_, trivial, ⟨rfl, rfl⟩⟩
    · have ht : Layout h.hdr (a + n) rest e := hsn ▸ hl.2.2.2
      exact ht.frame fun x hx _ => update_of_ne (by omega) _ _
    · exact update_of_ne (by omega) _ _
  · have hx : (a + n) % 2 ^ w = a + n := mod_eq_of_lt (by omega)
    simp only [if_neg h0, hx, pad, Heap.set, makeFree_eq _ (by omega : s - n < 2 ^ 32),
      update_of_ne hne, ha, hused rfl, cons_append, nil_append]
    refine ⟨?_, fun x hx => ?_, trivial, ⟨rfl, rfl⟩⟩
    · exact @split _ _ _ _ ⟨n, true⟩ ⟨s - n, false⟩ _ hl (by simp only; omega) hn
        (by simp only; omega) h16
    · rw [update_of_ne (by omega), update_of_ne (by omega)]

/-! ## The rover -/

namespace Inv

section

variable (hi : Inv w h (done ++ b :: rest))
include hi

theorem hdr_at : h.hdr (h.heapSt + total done) = mkHdr (h.heapSt + total done) b :=
  (append_iff.1 hi.layout).2.1

theorem size_lt : b.size < 2 ^ 32 ∧ 0 < b.size ∧ b.size % 16 = 0 ∧ total done % 16 = 0 ∧
      h.heapEn = h.heapSt + total done + b.size + total rest := by
  have h1 := hi.small
  have h2 := (append_iff.1 hi.layout)
  have h3 := hi.layout.end_eq
  simp only [total_append, total_cons] at h1 h3
  exact ⟨by omega, h2.2.2.1, h2.2.2.2.1, h2.1.total_mod, by omega⟩

/-- The rover stands at or before a block, or everything up to that block is USED. -/
theorem rover :
    (∃ pre k, done = pre ++ k ∧ (∀ c ∈ pre, c.used = true) ∧ h.firstFree = h.heapSt + total pre) ∨
    b.used = true ∧ (∀ c ∈ done, c.used = true) ∧ h.heapSt + total done < h.firstFree := by
  obtain ⟨pre, cur, he, -, hpre, hff⟩ := hi.first
  rcases append_eq_append_iff.1 he with ⟨k, rfl, hk⟩ | ⟨k, rfl, hk⟩
  · cases k with
    | nil => exact .inl ⟨done, [], by simp, by simpa using hpre, by simpa using hff⟩
    | cons c k =>
      simp only [cons_append, List.cons.injEq] at hk
      have := hi.size_lt.2.1
      refine .inr ⟨hpre b (by simp [hk.1]), fun d hd => hpre d (mem_append_left _ hd), ?_⟩
      rw [hff, total_append, total_cons, ← hk.1]; omega
  · exact .inl ⟨pre, k, rfl, hpre, hff⟩

end

/-- Where a block ends stands the header of the next one, or the sentinel. -/
theorem boundary (hi : Inv w h (done ++ rest)) :
    ∃ c, h.hdr (h.heapSt + total done) = mkHdr (h.heapSt + total done) c ∧ c.size < 2 ^ 32 ∧
      ((∀ b ∈ rest.head?, b.used = true) → c.used = true) := by
  cases rest with
  | nil =>
    have hend := hi.layout.end_eq
    rw [append_nil] at hend
    exact ⟨⟨0, true⟩, hend ▸ hi.sentinel, by decide, fun _ => rfl⟩
  | cons c rest => exact ⟨c, hi.hdr_at, hi.size_lt.1, fun hr => hr c rfl⟩

/-- No FREE block begins where a USED one or the sentinel stands. -/
theorem not_free_at (hi : Inv w h (done ++ rest)) (hr : ∀ b ∈ rest.head?, b.used = true) :
    ¬ FreeFrom h.heapSt (done ++ rest) (h.heapSt + total done) := by
  rw [freeFrom_append]
  rintro (hF | hF)
  · have := freeFrom_bounds hF
    omega
  · cases rest with
    | nil => exact hF
    | cons c rest =>
      rcases hF with hF | hF
      · rw [hr c rfl] at hF
        cases hF.1
      · have := freeFrom_bounds hF
        have := hi.size_lt.2.1
        omega

theorem replace {old new : List Blk} (hi : Inv w h (done ++ old))
    (hse : SameEnds h h') (hl : Layout h'.hdr (h.heapSt + total done) new h.heapEn)
    (hfr : ∀ x, x < h.heapSt + total done ∨ h.heapEn ≤ x → h'.hdr x = h.hdr x)
    (hfirst : ∃ pre cur, done ++ new = pre ++ cur ∧ cur ≠ [] ∧ (∀ b ∈ pre, b.used = true) ∧
      h'.firstFree = h.heapSt + total pre) : Inv w h' (done ++ new) := by
  have hend := hi.layout.end_eq
  have hnew := hl.end_eq
  have hsmall := hi.small
  refine ⟨by rw [hse.st]; exact hi.st16, ?_, ?_, by rw [hse.en]; exact hi.top, ?_, ?_⟩
  · rw [hse.st, hse.en]
    refine append_iff.2 ⟨?_, hl⟩
    exact (append_iff.1 hi.layout).1.frame fun x _ hx => hfr x (.inl hx)
  · rw [hse.en, hfr _ (.inr le_rfl)]; exact hi.sentinel
  · rw [total_append]; omega
  · rw [hse.st]; exact hfirst

end Inv

/-- The rover after `note_free`: it stands at or before a FREE block. -/
theorem noteFree_spec (hi : Inv w h (done ++ b :: rest)) (hb : b.used = false)
    (hrover : (h.hdr h.firstFree).sig = usedSig → ∀ c ∈ done, c.used = true) :
    ∃ pre k, done = pre ++ k ∧ (∀ c ∈ pre, c.used = true) ∧
      (noteFree h (h.heapSt + total done)).firstFree = h.heapSt + total pre ∧
      (noteFree h (h.heapSt + total done)).hdr = h.hdr ∧
      SameEnds h (noteFree h (h.heapSt + total done)) ∧
      (h.hdr (h.heapSt + total pre)).sig ≠ usedSig := by
  obtain ⟨pre, k, hd, hpre, hff⟩ := hi.rover.resolve_right (by simp [hb])
  have hle : total pre ≤ total done := by rw [hd, total_append]; omega
  by_cases hu : (h.hdr h.firstFree).sig = usedSig
  · refine ⟨done, [], by simp, hrover hu, ?_, ?_, ?_, ?_⟩
    · simp [noteFree, hu]
    · simp [noteFree, hu]
    · simp only [noteFree, hu, or_true, if_true]; exact ⟨rfl, rfl⟩
    · rw [hi.hdr_at]; intro hc; rw [mkHdr_used.1 hc] at hb; cases hb
  · have : noteFree h (h.heapSt + total done) = h := by
      unfold noteFree; rw [if_neg]; rintro (hlt | hc)
      · omega
      · exact hu hc
    rw [this]
    exact ⟨pre, k, hd, hpre, hff, rfl, .refl h, by rw [← hff]; exact hu⟩

/-! ## Requests -/

/-- A request whose rounding does not wrap. -/
structure Req (w n al : Nat) : Prop where
  pos : 0 < n
  pow : ∃ k, 4 ≤ k ∧ k ≤ w ∧ al = 2 ^ k
  fits : n + al + 15 < 2 ^ w

/-- Payload and header of a block for `n` bytes. -/
def blockSize (n : Nat) : Nat := (n + 15) / 16 * 16 + 16

/-- The bytes in front of the first aligned payload in a block at `a`. -/
def gap (a al : Nat) : Nat := (al - (a + 16) % al) % al

namespace Req

section

variable (hr : Req w n al)
include hr

theorem al_pos : 0 < al := by
  obtain ⟨k, -, -, rfl⟩ := hr.pow; exact Nat.two_pow_pos k

theorem al_dvd : 16 ∣ al := by
  obtain ⟨k, hk, -, rfl⟩ := hr.pow; exact pow_dvd_pow 2 hk

theorem roundBytes_eq : roundBytes w n = blockSize n := by
  obtain ⟨k, hk, hkw, -⟩ := hr.pow
  have hfit := hr.fits
  have hal := le_of_dvd hr.al_pos hr.al_dvd
  unfold roundBytes blockSize
  rw [mod_eq_of_lt (by omega : n + 15 < 2 ^ w)]
  rw [show (16 : Nat) = 2 ^ 4 from rfl, maskNeg_two_pow (by omega) (by omega), mod_eq_of_lt (by omega)]

theorem alignAdj_eq (ha : a + 16 < 2 ^ w) : alignAdj w ((a + 16) % 2 ^ w) al = gap a al := by
  obtain ⟨k, -, hkw, rfl⟩ := hr.pow
  rw [mod_eq_of_lt ha, alignAdj_two_pow ha hkw]
  rfl

/-- The payload behind the gap is at the next multiple. -/
theorem gap_spec : ∃ q, a + 16 + gap a al = al * q ∧ gap a al < al := by
  have h1 := mod_lt (a + 16) hr.al_pos
  have h2 := div_add_mod (a + 16) al
  unfold gap
  rcases Nat.eq_zero_or_pos ((a + 16) % al) with h0 | h0
  · rw [h0, Nat.sub_zero, Nat.mod_self]
    exact ⟨(a + 16) / al, by omega, hr.al_pos⟩
  · rw [mod_eq_of_lt (by omega : al - (a + 16) % al < al)]
    exact ⟨(a + 16) / al + 1, by rw [mul_add]; omega, by omega⟩

theorem gap_mod (ha : a % 16 = 0) : gap a al % 16 = 0 ∧ gap a al + 16 ≤ al := by
  obtain ⟨q, hq, hlt⟩ := @gap_spec a _ _ _ hr
  have h1 := Nat.mod_eq_zero_of_dvd (Nat.dvd_mul_right_of_dvd hr.al_dvd q)
  have h2 := Nat.mod_eq_zero_of_dvd hr.al_dvd
  omega

theorem gap_aligned : (a + gap a al + 16) % al = 0 := by
  obtain ⟨q, hq, -⟩ := @gap_spec a _ _ _ hr
  rw [add_right_comm, hq, mul_mod_right]

/-- No aligned payload starts before the one `gap` gives. -/
theorem gap_least (hy : y % al = 0) (hle : a + 16 ≤ y) : a + 16 + gap a al ≤ y := by
  obtain ⟨q, hq, hlt⟩ := @gap_spec a _ _ _ hr
  obtain ⟨c, rfl⟩ := dvd_of_mod_eq_zero hy
  rw [hq]
  refine mul_le_mul_left al (le_of_lt_succ ?_)
  refine Nat.lt_of_mul_lt_mul_left (a := al) ?_
  rw [Nat.mul_succ]
  omega

theorem blockSize_facts (ha : a % 16 = 0) :
    0 < blockSize n ∧ blockSize n % 16 = 0 ∧ n + 16 ≤ blockSize n ∧
      blockSize n + gap a al < 2 ^ w := by
  have h1 := hr.fits
  have h2 := (hr.gap_mod ha).2
  unfold blockSize
  omega

end

end Req

/-- The addresses `F` have room for the header and the payload of a request, with the
payload at `y`. -/
def Room (n al : Nat) (F : Nat → Prop) (y : Nat) : Prop :=
  y % al = 0 ∧ 16 ≤ y ∧ ∀ x, y - 16 ≤ x → x < y + n → F x

/-- A FREE block with no FREE block behind it that is too small has no room. -/
theorem no_room_in_block (hr : Req w n al) (ha : a % 16 = 0) (hs : s % 16 = 0) (hend : ¬ F (a + s))
    (hsmall : s < blockSize n + gap a al) (hy : Room n al F y) (hlo : a + 16 ≤ y) :
    a + s + 16 ≤ y := by
  by_contra hlt
  obtain ⟨hal, -, hF⟩ := hy
  have hyn : y + n ≤ a + s := by
    by_contra hge
    exact hend (hF _ (by omega) (by omega))
  have h1 := hr.gap_least hal hlo
  have h2 := (hr.gap_mod ha).1
  unfold blockSize at hsmall
  omega

/-! ## The walk -/

/-- The walk stands at the first block of `todo`. It started behind `pre`, whose blocks
are USED; `U` and `F` are the USED blocks and the FREE addresses, which merging does not
change; nothing in front of the walk, from `pre` on, has room. -/
structure Walk (w n al : Nat) (h : Heap) (pre mid todo : List Blk) (U : List Range)
    (F : Nat → Prop) : Prop where
  inv : Inv w h (pre ++ mid ++ todo)
  preUsed : ∀ b ∈ pre, b.used = true
  rover : (h.hdr h.firstFree).sig = usedSig → ∀ b ∈ mid, b.used = true
  used : usedFrom h.heapSt (pre ++ mid ++ todo) = U
  free : ∀ x, FreeFrom h.heapSt (pre ++ mid ++ todo) x ↔ F x
  none : ∀ y, Room n al F y → h.heapSt + total (pre ++ mid) + 16 ≤ y

/-- What a call of `malloc_aligned` ends with. -/
inductive Outcome (w n al : Nat) (h : Heap) (U : List Range) (F : Nat → Prop) : Heap → Nat → Prop
  | null {h' : Heap} {bs : List Blk} : SameEnds h h' → Inv w h' bs → usedFrom h.heapSt bs = U →
      (∀ x, FreeFrom h.heapSt bs x ↔ F x) → (∀ y, ¬ Room n al F y) → Outcome w n al h U F h' 0
  | took {h' : Heap} {bs : List Blk} {x : Nat} : SameEnds h h' → Inv w h' bs →
      (usedFrom h.heapSt bs).Perm ((x, blockSize n) :: U) → (x + 16) % al = 0 →
      Outcome w n al h U F h' (x + 16)

theorem Outcome.of_sameEnds {p : Nat} (hse : SameEnds h₁ h₂) (ho : Outcome w n al h₂ U F h' p) :
    Outcome w n al h₁ U F h' p := by
  cases ho with
  | null h1 h2 h3 h4 h5 => exact .null (hse.trans h1) h2 (hse.st ▸ h3) (hse.st ▸ h4) h5
  | took h1 h2 h3 h4 => exact .took (hse.trans h1) h2 (hse.st ▸ h3) h4

theorem next_hdr (hi : Inv w h (done ++ b :: rest)) :
    nextBlk w h (h.heapSt + total done) = h.heapSt + total done + b.size ∧
    (h.hdr (h.heapSt + total done + b.size)).invalid (h.heapSt + total done + b.size) = false := by
  have hsz := hi.size_lt
  have htop := hi.top
  refine ⟨nextBlk_eq hi.hdr_at (by omega), ?_⟩
  have hi' : Inv w h ((done ++ [b]) ++ rest) := by simpa using hi
  obtain ⟨c, hc, hlt, -⟩ := hi'.boundary
  simp only [total_append, total_cons, total_nil, add_zero] at hc
  rw [add_assoc, hc]
  exact mkHdr_valid hlt

theorem visit_of_used {bytes : Nat} (hi : Inv w h (done ++ b :: rest)) (hb : b.used = true) :
    visit w bytes al h (h.heapSt + total done) = .ok (.move h (h.heapSt + total (done ++ [b]))) := by
  obtain ⟨hnext, hvalid⟩ := next_hdr hi
  have hsig : (h.hdr (h.heapSt + total done)).sig ≠ freeSig := by
    rw [hi.hdr_at]; intro hc; rw [mkHdr_free.1 hc] at hb; cases hb
  have hpos : 0 < (h.hdr (h.heapSt + total done)).size := by
    rw [hi.hdr_at]; exact hi.size_lt.2.1
  unfold visit
  rw [hnext, hvalid, if_neg (by simp), coalesce_used (by have := hi.fuel_lt; omega) hsig]
  simp [tryBlock, if_neg hsig, advance, if_pos hpos, total_append, total_cons, total_nil, add_assoc]

namespace Walk

theorem visit_used (hw : Walk w n al h pre mid (b :: todo) U F) (hb : b.used = true) :
    visit w (blockSize n) al h (h.heapSt + total (pre ++ mid)) =
      .ok (.move h (h.heapSt + total (pre ++ (mid ++ [b])))) ∧
    Walk w n al h pre (mid ++ [b]) todo U F := by
  have hassoc : pre ++ (mid ++ [b]) ++ todo = pre ++ mid ++ b :: todo := by simp
  have hi := hw.inv
  refine ⟨?_, ?_⟩
  · rw [visit_of_used hi hb, append_assoc]
  · refine ⟨by rw [hassoc]; exact hi, hw.preUsed,
      fun hc => forall_mem_append.2 ⟨hw.rover hc, forall_mem_singleton.2 hb⟩,
      by rw [hassoc]; exact hw.used, by rw [hassoc]; exact hw.free, fun y hy => ?_⟩
    · -- a payload with its header in this block would need USED bytes
      have hlo := hw.none y hy
      simp only [total_append, total_cons, total_nil, add_zero] at hlo ⊢
      have hF := hy.2.2 (y - 16) le_rfl (by omega)
      rw [← hw.free, freeFrom_append] at hF
      rcases hF with hF | hF
      · have := freeFrom_bounds hF; simp only [total_append] at this; omega
      · rcases hF with hF | hF
        · rw [hb] at hF; cases hF.1
        · have := freeFrom_bounds hF; simp only [total_append] at this; omega

/-- The walk after the FREE blocks `fs` are merged into the one in front of them. -/
theorem merge {fs rest : List Blk} (hw : Walk w n al h pre mid (⟨s, false⟩ :: (fs ++ rest)) U F)
    (hfs : ∀ b ∈ fs, b.used = false) (hrest : ∀ b ∈ rest.head?, b.used = true) :
    ∃ h', coalesce w h.fuel h (h.heapSt + total (pre ++ mid)) (h.heapSt + total (pre ++ mid) + s) =
        some (h', h.heapSt + total (pre ++ mid) + (s + total fs)) ∧
      SameEnds h h' ∧ Walk w n al h' pre mid (⟨s + total fs, false⟩ :: rest) U F ∧
      ¬ F (h.heapSt + total (pre ++ mid) + (s + total fs)) := by
  have hi := hw.inv
  have hend := hi.layout.end_eq
  have hsmall := hi.small
  have htop := hi.top
  have hfuel := hi.fuel_lt
  obtain ⟨pre', k, hd, hpre', hff⟩ := hi.rover.resolve_right (by simp)
  have hle : total pre' ≤ total (pre ++ mid) := by rw [hd, total_append]; omega
  rw [total_append (pre ++ mid)] at hend hsmall
  simp only [total_cons, length_append, length_cons] at hend hsmall hfuel
  rw [total_append fs] at hend hsmall
  -- behind the run stands a USED block or the sentinel
  have hi' : Inv w h ((pre ++ mid ++ ⟨s, false⟩ :: fs) ++ rest) := by simpa using hi
  have hat : h.heapSt + total (pre ++ mid ++ ⟨s, false⟩ :: fs) =
      h.heapSt + total (pre ++ mid) + s + total fs := by
    rw [total_append (pre ++ mid), total_cons, ← add_assoc, ← add_assoc]
  have hstop : (h.hdr (h.heapSt + total (pre ++ mid) + s + total fs)).sig ≠ freeSig := by
    obtain ⟨c, hc, -, hu⟩ := hi'.boundary
    rw [← hat, hc]
    intro hfree
    rw [mkHdr_free.1 hfree] at hu
    cases hu hrest
  obtain ⟨h', hc, hl, hfr, hff', hse⟩ := coalesce_spec (w := w) fs h.fuel h _ s h.heapEn rest
    (append_iff.1 hi.layout).2 hfs hstop (by omega) (by omega) (by omega) (by omega)
  have hroverhdr : (h'.hdr h'.firstFree).sig = usedSig → (h.hdr h.firstFree).sig = usedSig := by
    intro hu
    rw [hff'] at hu
    rcases lt_or_ge h.firstFree (h.heapSt + total (pre ++ mid)) with hlt | hge
    · rwa [hfr _ (.inl hlt)] at hu
    · rw [show h.firstFree = h.heapSt + total (pre ++ mid) by omega, hl.1] at hu
      cases mkHdr_used.1 hu
  refine ⟨h', by rw [hc, add_assoc _ s], hse, ⟨?_, hw.preUsed, fun hu => hw.rover (hroverhdr hu),
    ?_, ?_, ?_⟩, ?_⟩
  · refine hi.replace hse hl (fun x hx => hfr x (by omega)) ?_
    exact ⟨pre', k ++ ⟨s + total fs, false⟩ :: rest, by rw [hd]; simp, by simp, hpre', by
      rw [hff', hff]⟩
  · rw [hse.st, ← hw.used]
    simp [usedFrom, usedFrom_of_free hfs, add_assoc]
  · intro x
    rw [hse.st, ← hw.free, freeFrom_append (pre ++ mid), freeFrom_append (pre ++ mid)]
    refine or_congr_right ?_
    simp only [FreeFrom, true_and, freeFrom_append, freeFrom_of_free hfs, ← add_assoc]
    rw [← or_assoc]
    exact or_congr_left (by omega)
  · rw [hse.st]; exact hw.none
  · rw [← hw.free, ← add_assoc, ← hat]
    simpa using hi'.not_free_at hrest

/-- A FREE block with a USED block or the sentinel behind it: it is handed out, or it has
no room and is passed. -/
theorem tryBlock_free (hr : Req w n al) (hw : Walk w n al h pre mid (⟨s, false⟩ :: rest) U F)
    (ha : h.heapSt + total (pre ++ mid) = a) (hend : ¬ F (a + s)) :
    (∃ h' p, tryBlock w (blockSize n) al h a (a + s) = .took h' p ∧ Outcome w n al h U F h' p) ∨
    (∃ h', tryBlock w (blockSize n) al h a (a + s) = .move h' (a + s) ∧
      SameEnds h h' ∧ Walk w n al h' pre (mid ++ [⟨s, false⟩]) rest U F) := by
  have hi := hw.inv
  have hsz := hi.size_lt
  have htop := hi.top
  have hst := hi.st16
  have hat := hi.hdr_at
  have hl0 := (append_iff.1 hi.layout).2
  have hrep := @hi.replace
  obtain ⟨pre', k, hd, hpre', hff, hhdr, hse, hnu⟩ := noteFree_spec hi rfl
    (fun hu b hb => (mem_append.1 hb).elim (hw.preUsed b) (hw.rover hu b))
  simp only [ha] at hsz hat hl0 hrep hff hhdr hse
  have ha16 : a % 16 = 0 := by omega
  obtain ⟨hb0, hb16, hbn, hbw⟩ := hr.blockSize_facts ha16
  have hg16 := (hr.gap_mod ha16).1
  have hfree : (h.hdr a).sig = freeSig := by
    rw [hat]; exact mkHdr_free.2 rfl
  have hsize : ((noteFree h a).hdr a).size = s := by rw [hhdr, hat]; rfl
  have hle : total pre' ≤ total (pre ++ mid) := by rw [hd, total_append]; omega
  unfold tryBlock
  rw [if_pos hfree]
  simp only [hr.alignAdj_eq (a := a) (by omega), hsize, mod_eq_of_lt hbw]
  generalize hgdef : gap a al = g at *
  generalize noteFree h a = h₁ at *
  by_cases hfit : blockSize n + g ≤ s
  · left
    rw [if_pos hfit]
    have hl : Layout h₁.hdr a (⟨s, false⟩ :: rest) h.heapEn := hhdr ▸ hl0
    obtain ⟨hx, hl2, hfr2, hff2, hse2⟩ := splitAligned_spec (w := w) hl (by omega) hg16 hsz.1 (by omega)
      (by omega)
    generalize splitAligned w h₁ a g = r at *
    obtain ⟨h₂, x⟩ := r
    subst hx
    have hsplit := append_iff.1 hl2
    rw [total_pad] at hsplit
    obtain ⟨hl3, hfr3, hff3, hse3⟩ := carve_spec (w := w) hsplit.2 hb0 (by omega) hb16 (by omega) (by omega)
    generalize carve w h₂ (a + g) (blockSize n) = h₃ at *
    have hends := (hse.trans hse2).trans hse3
    refine ⟨h₃, a + g + 16, by rw [mod_eq_of_lt (by omega)], ?_⟩
    have hinv : Inv w h₃ (pre ++ mid ++ (pad g ++ ⟨blockSize n, true⟩ ::
        (pad (s - g - blockSize n) ++ rest))) := by
      refine hrep _ _ hends ?_ (fun x hx => ?_) ?_
      · refine append_iff.2 ⟨?_, by rw [total_pad]; exact hl3⟩
        rw [total_pad]
        exact hsplit.1.frame fun x _ hx => hfr3 x (.inl hx)
      · rw [hfr3 x (by omega), hfr2 x (by omega), hhdr]
      · refine ⟨pre', k ++ (pad g ++ ⟨blockSize n, true⟩ :: (pad (s - g - blockSize n) ++ rest)), ?_,
          by simp, hpre', by rw [hff3, hff2, hff]⟩
        rw [hd, append_assoc]
    refine .took hends hinv ?_ ?_
    · rw [← hw.used]
      simp only [usedFrom_append, usedFrom, if_true, usedFrom_of_free pad_free, total_pad,
        nil_append, Bool.false_eq_true, if_false, ha]
      rw [show a + g + blockSize n + (s - g - blockSize n) = a + s by omega]
      exact perm_middle
    · rw [← hgdef]; exact hr.gap_aligned
  · right
    rw [if_neg hfit]
    refine ⟨h₁, by simp [advance, hsize, hsz.2.1], hse, ?_⟩
    have hassoc : pre ++ (mid ++ [⟨s, false⟩]) ++ rest = pre ++ mid ++ ⟨s, false⟩ :: rest := by simp
    refine ⟨?_, hw.preUsed, fun hu => ?_, ?_, ?_, fun y hy => ?_⟩
    · rw [hassoc]
      refine hrep _ _ hse (hhdr ▸ hl0) (fun x _ => by rw [hhdr]) ?_
      exact ⟨pre', k ++ ⟨s, false⟩ :: rest, by rw [hd]; simp, by simp, hpre', hff⟩
    · rw [hff, hhdr] at hu; exact absurd hu hnu
    · rw [hassoc, hse.st]; exact hw.used
    · rw [hassoc, hse.st]; exact hw.free
    · have := no_room_in_block hr ha16 hsz.2.2.1 hend (by omega) hy (ha ▸ hw.none y hy)
      rw [hse.st]
      simp only [total_append, total_cons, total_nil, add_zero] at ha ⊢
      omega

/-- One pass of the loop at a FREE block. -/
theorem visit_free (hr : Req w n al) (hw : Walk w n al h pre mid (b :: todo) U F)
    (hb : b.used = false) :
    (∃ h' p, visit w (blockSize n) al h (h.heapSt + total (pre ++ mid)) = .ok (.took h' p) ∧
      Outcome w n al h U F h' p) ∨
    (∃ h' mid' todo', visit w (blockSize n) al h (h.heapSt + total (pre ++ mid)) =
        .ok (.move h' (h.heapSt + total (pre ++ mid'))) ∧ SameEnds h h' ∧
      Walk w n al h' pre mid' todo' U F ∧ todo'.length ≤ todo.length ∧ mid' ≠ []) := by
  obtain ⟨hnext, hvalid⟩ := next_hdr hw.inv
  obtain ⟨fs, rest, rfl, hfs, hrest⟩ := exists_run todo
  obtain ⟨s, u⟩ := b
  subst hb
  obtain ⟨h₁, hc, hse, hw1, hend⟩ := hw.merge hfs hrest
  have hv : visit w (blockSize n) al h (h.heapSt + total (pre ++ mid)) =
      .ok (tryBlock w (blockSize n) al h₁ (h.heapSt + total (pre ++ mid))
        (h.heapSt + total (pre ++ mid) + (s + total fs))) := by
    unfold visit
    rw [hnext, hvalid, if_neg (by simp), hc]
  rw [hv]
  rw [← hse.st] at hend ⊢
  rcases tryBlock_free hr hw1 rfl hend with ⟨h', p, ht, ho⟩ | ⟨h', ht, hse', hw'⟩
  · exact .inl ⟨h', p, by rw [ht], ho.of_sameEnds hse⟩
  · refine .inr ⟨h', mid ++ [⟨s + total fs, false⟩], rest, ?_, hse.trans hse', hw', ?_, by simp⟩
    · rw [ht]; simp only [total_append, total_cons, total_nil, add_zero, add_assoc]
    · simp

theorem visit_end (hw : Walk w n al h pre mid [] U F) :
    visit w (blockSize n) al h (h.heapSt + total (pre ++ mid)) = .ok (.move h h.heapSt) := by
  have hi := hw.inv
  have hen : h.heapSt + total (pre ++ mid) = h.heapEn := by
    have := hi.layout.end_eq; simp only [append_nil] at this; omega
  have hsig : (h.hdr h.heapEn).sig ≠ freeSig := by
    rw [hi.sentinel]; exact fun hc => by cases mkHdr_free.1 hc
  have hnext : nextBlk w h h.heapEn = h.heapEn :=
    nextBlk_eq hi.sentinel (by have := hi.top; simp only; omega)
  have hvalid : (h.hdr h.heapEn).invalid h.heapEn = false := by
    rw [hi.sentinel]; exact mkHdr_valid (by decide)
  have hzero : (h.hdr h.heapEn).size = 0 := by rw [hi.sentinel]; rfl
  rw [hen]
  unfold visit
  rw [hnext, hvalid, if_neg (by simp), coalesce_used (by have := hi.fuel_lt; omega) hsig]
  simp [tryBlock, if_neg hsig, advance, hzero]

end Walk

/-- The second half of the walk, over the USED blocks in front of the start. -/
theorem search_pre (bytes al : Nat) (rest p2 : List Blk) :
    ∀ (p1 : List Blk) (fuel : Nat), Inv w h (p1 ++ p2 ++ rest) → (∀ b ∈ p2, b.used = true) →
      p2 ≠ [] → p2.length ≤ fuel →
      search w bytes al (h.heapSt + total (p1 ++ p2)) fuel h (h.heapSt + total p1) = .ok (h, 0) := by
  induction p2 with
  | nil => intro _ _ _ _ hne; exact absurd rfl hne
  | cons b p2 ih =>
    intro p1 fuel hi hu _ hfuel
    rw [length_cons] at hfuel
    obtain _ | fuel := fuel
    · omega
    have hi' : Inv w h (p1 ++ b :: (p2 ++ rest)) := by simpa using hi
    rw [search, visit_of_used hi' (hu b mem_cons_self)]
    cases p2 with
    | nil => simp
    | cons c p2 =>
      have hc : 0 < c.size := by
        have hi'' : Inv w h ((p1 ++ [b]) ++ c :: (p2 ++ rest)) := by simpa using hi
        exact hi''.size_lt.2.1
      have happ : p1 ++ b :: c :: p2 = p1 ++ [b] ++ c :: p2 := by simp
      simp only [happ]
      rw [if_neg (by rw [total_append (p1 ++ [b]), total_cons]; omega)]
      exact ih (p1 ++ [b]) fuel (by simpa using hi) (fun d hd => hu d (mem_cons_of_mem b hd))
        (by simp) (by omega)

theorem Walk.null (hw : Walk w n al h pre mid [] U F) : Outcome w n al h U F h 0 := by
  refine .null (.refl h) hw.inv hw.used hw.free fun y hy => ?_
  have hlo := hw.none y hy
  have hF := hy.2.2 (y - 16) le_rfl (by omega)
  have := freeFrom_bounds ((hw.free _).2 hF)
  rw [append_nil] at this
  omega

/-- The walk from any point ends. -/
theorem search_walk (hr : Req w n al) (m : Nat) :
    ∀ (todo mid : List Blk) (fuel : Nat) (h : Heap), todo.length ≤ m →
      Walk w n al h pre mid todo U F → todo.length + pre.length + 1 ≤ fuel →
      ∃ h' p, search w (blockSize n) al (h.heapSt + total pre) fuel h
          (h.heapSt + total (pre ++ mid)) = .ok (h', p) ∧ Outcome w n al h U F h' p := by
  -- at most `m` blocks are left; merging shortens the list by more than the one passed
  induction m with
  | zero =>
    intro todo mid fuel h hm hw hfuel
    obtain rfl : todo = [] := length_eq_zero_iff.1 (by omega)
    obtain _ | fuel := fuel
    · omega
    refine ⟨h, 0, ?_, hw.null⟩
    rw [search, hw.visit_end]
    cases hp : pre with
    | nil => simp
    | cons b p =>
      have hi := hw.inv
      rw [hp] at hi
      have hb : 0 < b.size := by
        have hi' : Inv w h ([] ++ b :: (p ++ mid ++ [])) := by simpa using hi
        exact hi'.size_lt.2.1
      simp only
      rw [if_neg (by rw [total_cons]; omega)]
      have := search_pre (blockSize n) al (mid ++ []) (b :: p) [] fuel (by simpa using hi)
        (by rw [← hp]; exact hw.preUsed) (by simp) (by rw [hp] at hfuel; omega)
      simpa using this
  | succ m ih =>
    intro todo mid fuel h hm hw hfuel
    cases todo with
    | nil => exact ih [] mid fuel h (by simp) hw hfuel
    | cons b todo =>
      rw [length_cons] at hm hfuel
      obtain _ | fuel := fuel
      · omega
      -- the walk never comes back to its start before it wraps
      have hmoved : ∀ {h' : Heap} {mid' todo' : List Blk}, Walk w n al h' pre mid' todo' U F →
          mid' ≠ [] → h.heapSt + total (pre ++ mid') ≠ h.heapSt + total pre := by
        intro h' mid' todo' hw' hne
        have hi' := hw'.inv.layout
        rw [append_assoc] at hi'
        have h1 := (append_iff.1 (append_iff.1 hi').2).1.length_le
        have h2 := length_pos_iff.2 hne
        rw [total_append]; omega
      cases hb : b.used with
      | true =>
        obtain ⟨hv, hw'⟩ := hw.visit_used hb
        rw [search, hv]
        simp only
        rw [if_neg (hmoved hw' (by simp))]
        exact ih todo (mid ++ [b]) fuel h (by omega) hw' (by omega)
      | false =>
        rcases hw.visit_free hr hb with ⟨h', p, hv, ho⟩ | ⟨h', mid', todo', hv, hse, hw', hlen, hne⟩
        · exact ⟨h', p, by rw [search, hv], ho⟩
        · rw [search, hv]
          simp only
          rw [if_neg (hmoved hw' hne), ← hse.st]
          obtain ⟨h₂, p, hs, ho⟩ := ih todo' mid' fuel h' (by omega) hw' (by omega)
          exact ⟨h₂, p, hs, ho.of_sameEnds hse⟩

theorem mallocAligned_spec (hi : Inv w h bs)
    (hr : Req w n al) : ∃ h' p, mallocAligned w h n al = .ok (h', p) ∧
      Outcome w n al h (usedFrom h.heapSt bs) (FreeFrom h.heapSt bs) h' p := by
  obtain ⟨pre, cur, rfl, hne, hpre, hff⟩ := hi.first
  have hfuel := hi.fuel_lt
  rw [length_append] at hfuel
  have hvalid : (h.hdr h.firstFree).invalid h.firstFree = false := by
    cases cur with
    | nil => exact absurd rfl hne
    | cons c cur => rw [hff, hi.hdr_at]; exact mkHdr_valid hi.size_lt.1
  have hw : Walk w n al h pre [] cur (usedFrom h.heapSt (pre ++ cur)) (FreeFrom h.heapSt (pre ++ cur)) := by
    refine ⟨by simpa using hi, hpre, by simp, by simp, by simp, fun y hy => ?_⟩
    have hF := hy.2.2 (y - 16) le_rfl (by have := hy.2.1; omega)
    rw [freeFrom_append] at hF
    have := freeFrom_bounds (hF.resolve_left (not_freeFrom_of_used hpre))
    have := hy.2.1
    rw [append_nil]; omega
  unfold mallocAligned
  rw [if_neg (ne_of_gt hr.pos), hvalid, if_neg (by simp), hr.roundBytes_eq, hff]
  have := search_walk hr cur.length cur [] h.fuel h le_rfl hw (by omega)
  simpa using this

/-! ## `free` and `malloc_validate` -/

theorem free_spec {x : Nat} (hi : Inv w h bs) (hx : (x, s) ∈ usedFrom h.heapSt bs) :
    ∃ h' bs', free w h (x + 16) = .ok h' ∧ SameEnds h h' ∧ Inv w h' bs' ∧
      (usedFrom h.heapSt bs).Perm ((x, s) :: usedFrom h.heapSt bs') := by
  obtain ⟨p, b, q, rfl, hu, hxs⟩ := mem_usedFrom hx
  obtain ⟨rfl, rfl⟩ := hxs
  have hsz := hi.size_lt
  have htop := hi.top
  have hat := hi.hdr_at
  obtain ⟨hl1, -, -, -, hl2⟩ := append_iff.1 hi.layout
  have hblk : (h.heapSt + total p + 16 + 2 ^ w - 16) % 2 ^ w = h.heapSt + total p :=
    sub_mod_two_pow (by omega) (by omega)
  have hnew : (release h (h.heapSt + total p)).hdr (h.heapSt + total p) =
      mkHdr (h.heapSt + total p) ⟨b.size, false⟩ := by
    simp only [release, Heap.set, update_self, hat]; rfl
  have hother : ∀ y ≠ h.heapSt + total p, (release h (h.heapSt + total p)).hdr y = h.hdr y :=
    fun y hy => update_of_ne hy _ _
  refine ⟨release h (h.heapSt + total p), p ++ ⟨b.size, false⟩ :: q, ?_, ⟨rfl, rfl⟩, ?_, ?_⟩
  · unfold free
    rw [if_neg (by omega), hblk]
    simp [hat, mkHdr_used.2 hu, mkHdr_valid hsz.1]
  · refine hi.replace ⟨rfl, rfl⟩ ⟨hnew, hsz.2.1, hsz.2.2.1, ?_⟩ (fun y hy => hother y (by omega)) ?_
    · exact hl2.frame fun y hy _ => hother y (by omega)
    · -- the rover moves back to the freed block when that lies in front of it
      simp only [release]
      rcases hi.rover with ⟨pre, k, rfl, hpre, hff⟩ | ⟨-, hp, hlt⟩
      · rw [if_neg (by rw [hff, total_append]; omega)]
        exact ⟨pre, k ++ ⟨b.size, false⟩ :: q, by simp, by simp, hpre, hff⟩
      · rw [if_pos hlt]
        exact ⟨p, _, rfl, by simp, hp, rfl⟩
  · simp only [usedFrom_append, usedFrom, hu, if_true, Bool.false_eq_true, if_false]
    exact perm_middle

theorem validate_from (todo : List Blk) : ∀ (done : List Blk) (fuel : Nat),
    Inv w h (done ++ todo) → todo.length < fuel → validate w h fuel (h.heapSt + total done) = true := by
  induction todo with
  | nil =>
    intro done fuel hi hfuel
    obtain _ | fuel := fuel
    · omega
    have hen : h.heapSt + total done = h.heapEn := by
      have := hi.layout.end_eq; simp only [append_nil] at this; omega
    have hle : ¬ (h.heapEn < h.heapSt ∨ h.heapEn < h.heapEn) := by omega
    have hv : (mkHdr h.heapEn ⟨0, true⟩).invalid h.heapEn = false := mkHdr_valid (by decide)
    have hs : (mkHdr h.heapEn ⟨0, true⟩).sig = usedSig := mkHdr_used.2 rfl
    rw [hen, validate, hi.sentinel]
    simp only [hv, hs, mkHdr_size, Bool.false_eq_true, false_or, ne_eq, not_true_eq_false, and_false,
      if_false, if_neg hle, if_true, decide_true]
  | cons b todo ih =>
    intro done fuel hi hfuel
    rw [length_cons] at hfuel
    obtain _ | fuel := fuel
    · omega
    have hsz := hi.size_lt
    have hsig : ¬ ((mkHdr (h.heapSt + total done) b).sig ≠ freeSig ∧
        (mkHdr (h.heapSt + total done) b).sig ≠ usedSig) := by
      cases hb : b.used with
      | true => exact fun hc => hc.2 (mkHdr_used.2 hb)
      | false => exact fun hc => hc.1 (mkHdr_free.2 hb)
    have hin : ¬ (h.heapSt + total done < h.heapSt ∨ h.heapEn < h.heapSt + total done) := by omega
    have hne : h.heapSt + total done ≠ h.heapEn := by omega
    have hi' : Inv w h ((done ++ [b]) ++ todo) := by simpa using hi
    have := ih (done ++ [b]) fuel hi' (by omega)
    rw [validate, (next_hdr hi).1, hi.hdr_at, mkHdr_valid hsz.1, mkHdr_size, hsz.2.2.1]
    simp only [Bool.false_eq_true, false_or, if_neg hsig, ne_eq, not_true_eq_false, if_false,
      if_neg hin, if_neg hne]
    simpa [total_append, total_cons, total_nil, add_assoc] using this

theorem validate_of_inv (hi : Inv w h bs) : validate w h h.fuel h.heapSt = true := by
  have := validate_from bs [] h.fuel hi (by have := hi.fuel_lt; omega)
  simpa using this

end Dgos.L2.BootMalloc
