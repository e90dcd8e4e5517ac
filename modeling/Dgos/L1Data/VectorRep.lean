import Dgos.Core.Bits
import Dgos.L1Data.VectorLoops

/-!
# What the operations of `ext::vector` do to the elements

`Rep v l`: the vector `v` has the elements `l` in its first cells and room for what its capacity
says. Every member function has one lemma that says under which conditions it takes a vector
with the elements `l` to a vector with the elements the list operation gives.

The conditions are where the source is wrong:

* `SpaceFor`: `__make_space` asks `__grow` for less than it needs, and `__grow` then sees no need
  to grow at all when half of the new elements fit.
* `Usable`: a reference to an element of the vector is read after the element was moved or
  destroyed.
* an insertion or erasure of no elements destroys what it moved onto itself, unless the destructor
  is trivial.
* `Fits`: sizes in bytes wrap.
-/
namespace Dgos.L1.Vector

open Storage List Ref
open Nat (mod_eq_of_lt zero_le)

variable {T : Type} {e : Elem T} {mem : Bool}

/-! ## A vector with given elements -/

structure Rep (v : Vec T) (l : List T) : Prop where
  sz : v.sz = l.length
  le : v.sz ≤ v.capacity
  room : v.capacity ≤ v.mem.size
  holds : v.mem.Holds 0 l

theorem rep_empty : Rep (Vec.empty : Vec T) [] := ⟨rfl, le_rfl, le_rfl, trivial⟩

variable {v w other : Vec T} {b : Storage T} {l l1 l2 xs : List T} {n count amount garbage : Nat}
  {value : Ref T}

theorem mem_setMem (h : 0 < v.mem.size) (b : Storage T) : (v.setMem b).mem = b := by
  cases hm : v.m with
  | none =>
    rw [Vec.mem, hm] at h
    exact absurd h (lt_irrefl _)
  | some s => simp [Vec.mem, Vec.setMem, hm]

theorem rep_setMem (hn : n = l.length) (hsize : b.size = v.mem.size)
    (hroom : v.capacity ≤ v.mem.size) (hle : n ≤ v.capacity) (hb : b.Holds 0 l) :
    Rep { v.setMem b with sz := n } l := by
  rcases Nat.eq_zero_or_pos v.mem.size with h0 | hpos
  · have hnil : l = [] := length_eq_zero_iff.1 (by omega)
    subst hnil
    have hcap : v.capacity = 0 := by omega
    exact ⟨hn, hle, le_trans (le_of_eq hcap) (zero_le _), trivial⟩
  · have hmem : ({ v.setMem b with sz := n } : Vec T).mem = b := mem_setMem hpos b
    exact ⟨hn, hle, by rw [hmem, hsize]; exact hroom, by rw [hmem]; exact hb⟩

/-- A member that meets no error, reports success if it is `sure` to, and gives `P` then. -/
def Reports (sure : Bool) (x : Except Err (Bool × Vec T)) (P : Vec T → Prop) : Prop :=
  ∃ r w, x = .ok (r, w) ∧ (sure = true → r = true) ∧ (r = true → P w)

section Reports

variable {sure : Bool} {x : Except Err (Bool × Vec T)} {P Q : Vec T → Prop}

theorem reports_of_ok (h : x = .ok (true, w)) (hw : P w) : Reports sure x P :=
  ⟨true, w, h, fun _ => rfl, fun _ => hw⟩

theorem Reports.imp (h : Reports sure x P) (hpq : ∀ w, P w → Q w) : Reports sure x Q := by
  obtain ⟨r, w, hok, hsure, hw⟩ := h
  exact ⟨r, w, hok, hsure, fun hr => hpq w (hw hr)⟩

/-- The rest of a member that gives up when there is no room. -/
theorem Reports.bind {f : Bool × Vec T → Except Err (Bool × Vec T)} (h : Reports sure x P)
    (hno : ∀ w, f (false, w) = .ok (false, w))
    (hf : ∀ w, x = .ok (true, w) → P w → Reports sure (f (true, w)) Q) :
    Reports sure (x >>= f) Q := by
  obtain ⟨r, w, hok, hsure, hw⟩ := h
  rw [ok_bind hok]
  cases r with
  | false => exact ⟨false, w, hno w, hsure, nofun⟩
  | true => exact hf w hok (hw rfl)

/-- A caller that does not look at what is reported. -/
theorem Reports.returns (h : Reports true x P) : Returns (do let (_, w) ← x; return w) P := by
  obtain ⟨r, w, hok, hsure, hw⟩ := h
  exact ⟨w, ok_bind hok _, hw (hsure rfl)⟩

end Reports

theorem elements_holds {i : Nat} (h : b.Holds i l)
    (hsize : i + l.length ≤ b.size) : elements l.length i b = .ok l := by
  induction l generalizing i with
  | nil => rfl
  | cons x l ih =>
    simp only [length_cons] at hsize
    simp only [length_cons, elements, ok_bind (read_live (show i < b.size by omega) h.1),
      ok_bind (ih h.2 (by omega))]
    rfl

theorem Rep.elements (h : Rep v l) : v.elements = .ok l := by
  have hle := h.le
  have hroom := h.room
  rw [h.sz] at hle
  rw [Vec.elements, h.sz]
  exact elements_holds h.holds (by omega)

/-! ## Capacity -/

/-- The bytes of `n` elements do not wrap. -/
def Room (e : Elem T) (n : Nat) : Prop := n * e.size < 2 ^ 64

/-- Nor do those of the power of two `__best_cap` rounds them up to. -/
def Fits (e : Elem T) (n : Nat) : Prop := n * e.size + mallocOverhead ≤ 2 ^ 63

theorem Fits.lt (h : Fits e n) : n < 2 ^ 63 := by
  have hle := Nat.le_mul_of_pos_right n e.pos
  have hfits : n * e.size + 16 ≤ 2 ^ 63 := h
  omega

theorem size_allocate (h : Room e n) : allocate e true n = some ⟨n, fun _ => .raw⟩ := by
  have h64 : n * e.size % 2 ^ 64 = n * e.size := mod_eq_of_lt h
  rw [allocate, if_pos rfl, h64, Nat.mul_div_cancel _ e.pos]

theorem bitLog2_le_iff {k : Nat} (h0 : 0 < n) : bitLog2 n ≤ k ↔ n ≤ 2 ^ k := by
  rw [bitLog2, ite_not]
  exact log2_add_le_iff h0

/-- `__best_cap` gives what was asked for at least, in a size that does not wrap. -/
theorem bestCap_ok (h : Fits e (v.capacity + amount)) :
    v.capacity + amount ≤ bestCap e v amount ∧ Room e (bestCap e v amount) := by
  have hlt := h.lt
  have hbytes : (v.capacity + amount) * e.size + 16 ≤ 2 ^ 63 := h
  have hcap : (v.capacity + amount) % 2 ^ 64 = v.capacity + amount := mod_eq_of_lt (by omega)
  rw [bestCap]
  simp only [hcap, mallocOverhead]
  generalize hreq : (v.capacity + amount) * e.size = req at hbytes
  have hsz : req % 2 ^ 64 = req := mod_eq_of_lt (by omega)
  have hsz16 : (req + 16) % 2 ^ 64 = req + 16 := mod_eq_of_lt (by omega)
  rw [hsz, hsz16]
  have h0 : 0 < req + 16 := by omega
  have hlog := (bitLog2_le_iff h0).2 hbytes
  have hge := (bitLog2_le_iff h0).1 le_rfl
  have hpow : 2 ^ bitLog2 (req + 16) ≤ 2 ^ 63 := Nat.pow_le_pow_right (by decide) hlog
  rw [show bitLog2 (req + 16) % 64 = bitLog2 (req + 16) by omega]
  generalize 2 ^ bitLog2 (req + 16) = best at hge hpow
  have hbest : (best + 2 ^ 64 - 16) % 2 ^ 64 = best - 16 := by omega
  rw [hbest]
  constructor
  · rw [Nat.le_div_iff_mul_le e.pos]
    split <;> omega
  · have hmul := Nat.div_mul_le_self (if 64 - 16 ≤ best - 16 then best - 16 else 64 - 16) e.size
    have hlt64 : (if 64 - 16 ≤ best - 16 then best - 16 else 64 - 16) < 2 ^ 64 := by
      split <;> omega
    exact lt_of_le_of_lt hmul hlt64

variable (mem)

theorem reserve_of_le (h : n ≤ v.capacity) : reserve e mem v n = .ok (true, v) :=
  if_neg (by omega)

/-- When `__make_space` makes room for `count` elements: there is room already, or so little that
`__grow` sees it has to grow. -/
def SpaceFor (e : Elem T) (v : Vec T) (count : Nat) : Prop :=
  v.sz + count ≤ v.capacity ∨ 2 * (v.capacity - v.sz) < count ∧ Fits e (v.sz + count)

theorem growFor_of_le (h : v.sz + count ≤ v.capacity) : growFor e mem v count = .ok (true, v) := by
  exact if_neg (by omega)

section

variable (h : Rep v l)
include h

theorem reserve_ok (hn : Room e n) :
    Reports mem (reserve e mem v n) fun w => Rep w l ∧ n ≤ w.capacity := by
  by_cases hlt : v.capacity < n
  · cases mem with
    | false => exact ⟨false, v, by rw [reserve, if_pos hlt]; rfl, nofun, nofun⟩
    | true =>
      have ⟨hlen, hle, hroom, hholds⟩ := h
      obtain ⟨old, newP, hmove, hnew, ht, ht', hobj⟩ := uninitializedMove_ok hholds
        (show 0 + l.length ≤ v.mem.size by omega)
        (show 0 + l.length ≤ (⟨n, fun _ => .raw⟩ : Storage T).size by simpa using by omega)
      obtain ⟨gone, hdes⟩ := destructUp_ok (e := e) hobj (by rw [ht'.size]; omega)
      refine reports_of_ok (w := ⟨some newP, n, v.sz⟩) ?_ ⟨⟨hlen, ?_, ?_, hnew⟩, le_refl n⟩
      · rw [reserve, if_pos hlt, size_allocate hn]
        simp only [hlen, ok_bind hmove, ok_bind hdes]
        rfl
      · exact le_of_lt (lt_of_le_of_lt hle hlt)
      · exact le_of_eq ht.size.symm
  · exact reports_of_ok (reserve_of_le mem (by omega)) ⟨h, by omega⟩

theorem grow_ok (hfits : v.sz + amount ≤ v.capacity ∨ Fits e (v.capacity + amount)) :
    Reports mem (grow e mem v amount) fun w => Rep w l ∧ v.sz + amount ≤ w.capacity ∧
      (v.capacity < v.sz + amount → v.capacity + amount ≤ w.capacity) := by
  have hle := h.le
  rw [grow]
  split
  · obtain hfit | hfit := hfits
    · omega
    obtain ⟨hge, hroom⟩ := bestCap_ok hfit
    refine (reserve_ok mem h hroom).imp fun w ⟨hrep, hcap⟩ => ?_
    exact ⟨hrep, by omega, fun _ => by omega⟩
  · have hnot : v.sz + amount ≤ v.capacity := by
      obtain hfit | hfit := hfits
      · exact hfit
      · have hlt63 := hfit.lt
        omega
    exact reports_of_ok rfl ⟨h, hnot, fun hgt => by omega⟩

theorem growFor_ok (hs : SpaceFor e v count) :
    Reports mem (growFor e mem v count) fun w => Rep w l ∧ v.sz + count ≤ w.capacity := by
  by_cases hle : v.sz + count ≤ v.capacity
  · exact reports_of_ok (growFor_of_le mem hle) ⟨h, hle⟩
  obtain ⟨hfew, hfit⟩ := hs.resolve_left hle
  have hlt := hfit.lt
  have hmod : (v.sz + count) % 2 ^ 64 = v.sz + count := mod_eq_of_lt (by omega)
  have hneed : v.capacity + (v.sz + count - v.capacity) = v.sz + count := by omega
  rw [growFor, hmod, if_pos (by omega)]
  refine (grow_ok mem h (.inr (by rwa [hneed]))).imp fun w ⟨hrep, _, hgrown⟩ => ?_
  exact ⟨hrep, by omega⟩

/-- Null storage for no elements is as good as any. -/
theorem shrinkToFit_ok (hroom : Room e v.sz) (hmem : mem = true ∨ l = []) :
    Returns (shrinkToFit e mem v) (Rep · l) := by
  have ⟨hsz, _, hsize, hholds⟩ := h
  by_cases hlt : v.sz < v.capacity
  · cases mem with
    | false =>
      obtain rfl := hmem.resolve_left Bool.false_ne_true
      have h0 : v.sz = 0 := hsz
      exact ⟨⟨none, v.sz, v.sz⟩, by rw [shrinkToFit, if_pos hlt, h0]; rfl, hsz, le_rfl,
        le_of_eq h0, trivial⟩
    | true =>
      obtain ⟨old, tmp, hmove, htmp, ht, -, -⟩ := uninitializedMove_ok hholds
        (show 0 + l.length ≤ v.mem.size by omega)
        (show 0 + l.length ≤ (⟨v.sz, fun _ => .raw⟩ : Storage T).size by simp [hsz])
      refine ⟨⟨some tmp, v.sz, v.sz⟩, ?_, hsz, le_rfl, le_of_eq ht.size.symm, htmp⟩
      rw [shrinkToFit, if_pos hlt, size_allocate hroom]
      rw [hsz] at hmove ⊢
      simp only [ok_bind hmove]
      rfl
  · exact ⟨v, if_neg hlt, h⟩

end

/-! ## Single elements -/

/-- A reference that still refers to its element when an insertion of `count` elements at `pos`
reads it. -/
def Usable (v : Vec T) (pos count : Nat) : Ref T → Prop
  | .value _ => True
  | .own i => i < pos ∧ v.sz + count ≤ v.capacity

/-- The element a reference stands for at the time of the call. -/
def Ref.eval (e : Elem T) (l : List T) : Ref T → T
  | .value x => x
  | .own i => l.getD i e.dflt

theorem Ref.get_ok {pos : Nat} (l2 : List T)
    {r : Ref T} (hu : Usable v pos count r) (hpos : pos = l1.length) (hb : b.Holds 0 l1)
    (hsize : pos ≤ b.size) (hcap : v.sz + count ≤ v.capacity → w.capacity = v.capacity) :
    r.get v w b = .ok (r.eval e (l1 ++ l2)) := by
  cases r with
  | value x => rfl
  | own i =>
    obtain ⟨hi, hroom⟩ := hu
    have hlt : i < l1.length := by omega
    have hcell := hb.getElem (getElem?_eq_getElem hlt)
    rw [zero_add] at hcell
    have hval : (l1 ++ l2).getD i e.dflt = l1[i] := by
      rw [getD_eq_getElem?_getD, getElem?_append_left hlt, getElem?_eq_getElem hlt]
      rfl
    simp only [get, if_pos (hcap hroom), eval, hval]
    exact read_live (by omega) hcell

theorem popBack_ok {x : T} (h : Rep v (l ++ [x])) :
    Returns (popBack e v) fun w => Rep w l ∧ w.capacity = v.capacity := by
  have ⟨hsz, hle, hroom, hholds⟩ := h
  have hobj := hholds.objects
  simp only [length_append, length_singleton] at hsz hobj
  obtain ⟨b, hok, ht, -⟩ := destruct_ok
    (hobj.destructible (by omega) (zero_le _) (show v.sz - 1 < _ by omega) e.trivial)
  have hb : b.Holds 0 l := (holds_append.1 hholds).1.touched ht (.inl (by omega))
  refine ⟨_, ?_, rep_setMem (n := v.sz - 1) (by omega) ht.size hroom (by omega) hb, rfl⟩
  simp only [popBack, ok_bind hok]
  rfl

section

variable (h : Rep v l)
include h

theorem popAll_ok : Returns (popAll e l.length v) fun w => Rep w [] ∧ w.capacity = v.capacity := by
  induction l using reverseRecOn generalizing v with
  | nil => exact ⟨v, rfl, h, rfl⟩
  | append_singleton l x ih =>
    rw [length_append]
    refine (popBack_ok h).bind fun v1 _ ⟨h1, hcap⟩ => ?_
    rw [← hcap]
    exact ih h1

/-- A trivial destructor leaves the storage of a cleared vector as it was. -/
theorem clear_ok : Returns (clear e v) fun w => Rep w [] ∧ w.capacity = v.capacity ∧
      (e.trivial = true → w.mem = v.mem) := by
  cases htr : e.trivial with
  | true =>
    exact ⟨{ v with sz := 0 }, by rw [clear, htr]; rfl,
      ⟨rfl, zero_le _, h.room, trivial⟩, rfl, fun _ => rfl⟩
  | false =>
    obtain ⟨w, hok, hw, hcap⟩ := popAll_ok h
    refine ⟨w, ?_, hw, hcap, nofun⟩
    rw [clear, htr, if_neg Bool.false_ne_true, h.sz, hok]

theorem growOne_ok (hroom : v.sz + 1 ≤ v.capacity ∨ Fits e (v.capacity + 1)) :
    Reports mem (growOne e mem v) fun w => Rep w l ∧ v.sz + 1 ≤ w.capacity ∧
      (v.sz + 1 ≤ v.capacity → w.capacity = v.capacity) := by
  rw [growOne]
  split
  · refine (grow_ok mem h hroom).imp fun w ⟨hrep, hcap, _⟩ => ?_
    exact ⟨hrep, hcap, fun hle => by omega⟩
  · exact reports_of_ok rfl ⟨h, by omega, fun _ => rfl⟩

theorem pushWith_ok (hroom : v.sz + 1 ≤ v.capacity ∨ Fits e (v.capacity + 1))
    (hu : Usable v v.sz 1 value) :
    Reports mem (pushWith e mem v value) (Rep · (l ++ [value.eval e l])) := by
  refine (growOne_ok mem h hroom).bind (fun _ => rfl) fun w _ ⟨hrep, hcap, hsame⟩ => ?_
  have ⟨hsz, _, hwroom, hholds⟩ := hrep
  have hvsz := h.sz
  have hget := get_ok (e := e) [] hu hvsz hholds (by omega) hsame
  rw [append_nil] at hget
  have ht := touched_set w.mem w.sz (.live (value.eval e l))
  have hb : (w.mem.set w.sz (.live (value.eval e l))).Holds 0 (l ++ [value.eval e l]) := by
    refine holds_append.2 ⟨hholds.touched ht (.inl (by omega)), ?_, trivial⟩
    rw [zero_add, ← hsz, cell_set_self]
  refine reports_of_ok ?_ (rep_setMem (n := w.sz + 1) (by simp [hsz]) ht.size hwroom (by omega) hb)
  simp only [if_true, ok_bind hget,
    ok_bind (construct_ok (show w.sz < w.mem.size by omega) (value.eval e l))]
  rfl

end

/-! ## Gaps -/

/-- A vector with a gap of `count` cells between the elements `l1` and `l2`. -/
structure Gap (v w : Vec T) (l1 : List T) (count : Nat) (l2 : List T) : Prop where
  sz : w.sz = l1.length + l2.length
  cap : w.sz + count ≤ w.capacity
  room : w.capacity ≤ w.mem.size
  low : w.mem.Holds 0 l1
  high : w.mem.Holds (l1.length + count) l2
  same : v.sz + count ≤ v.capacity → w.capacity = v.capacity

section

variable (h : Rep v (l1 ++ l2))
include h

theorem makeSpace_ok (hs : SpaceFor e v count) (hcount : 0 < count ∨ e.trivial = true ∨ l2 = []) :
    ∃ place w, makeSpace e mem v l1.length count = .ok (place, w) ∧
      ∀ p, place = some p → p = l1.length ∧ w.m.isSome ∧ Gap v w l1 count l2 := by
  obtain ⟨grown, w, hok, -, hw⟩ := growFor_ok mem h hs
  cases grown with
  | false => exact ⟨none, w, by simp only [makeSpace, ok_bind hok]; rfl, nofun⟩
  | true =>
    obtain ⟨hrep, hcap⟩ := hw rfl
    have hsame : v.sz + count ≤ v.capacity → w.capacity = v.capacity := by
      intro hle
      rw [growFor_of_le mem hle] at hok
      cases hok
      rfl
    have hsz := hrep.sz
    have hvsz := h.sz
    have hroom := hrep.room
    rw [length_append] at hsz hvsz
    obtain ⟨hlow, hhigh⟩ := holds_append.1 hrep.holds
    rw [zero_add] at hhigh
    have hgap : ∃ b, openGap e count l1.length w.sz w.mem = .ok b ∧ b.Holds (l1.length + count) l2 ∧
        w.mem.Touched l1.length (l1.length + l2.length + count) b := by
      rw [hsz]
      obtain hc | hc | hc := hcount
      · exact openGap_ok hhigh (by omega) (.inl hc)
      · exact openGap_ok hhigh (by omega) (.inr hc)
      · -- nothing to move
        subst hc
        refine ⟨w.mem, ?_, Holds.nil _ _, .refl _ _ _⟩
        cases l1.length with
        | zero => rfl
        | succ n => exact if_neg (lt_irrefl _)
    obtain ⟨b, hopen, hb, ht⟩ := hgap
    refine ⟨w.m.map fun _ => l1.length, w.setMem b, ?_, ?_⟩
    · simp only [makeSpace, ok_bind hok, if_true, ok_bind hopen]
      rfl
    · intro p hp
      obtain ⟨s, hm, rfl⟩ := Option.map_eq_some_iff.1 hp
      have hmem : (w.setMem b).mem = b := by simp [Vec.mem, Vec.setMem, hm]
      refine ⟨rfl, by simp [Vec.setMem, hm], hsz, ?_, ?_, ?_, ?_, hsame⟩
      · show w.sz + count ≤ w.capacity
        omega
      · rw [hmem, ht.size]
        exact hroom
      · rw [hmem]
        exact hlow.touched ht (.inl (by omega))
      · rw [hmem]
        exact hb

/-- The overloads of `insert`: elements constructed in the whole gap, and counted. -/
theorem insertWith_ok (xs : List T) (put : Vec T → Nat → Except Err (Storage T))
    (hs : SpaceFor e v xs.length) (hcount : 0 < xs.length ∨ e.trivial = true ∨ l2 = [])
    (hput : ∀ w, Gap v w l1 xs.length l2 → ∃ b, put w l1.length = .ok b ∧
      b.Holds l1.length xs ∧ w.mem.Touched l1.length (l1.length + xs.length) b) :
    Reports false (insertWith e mem v l1.length xs.length xs.length put)
      (Rep · (l1 ++ xs ++ l2)) := by
  obtain ⟨place, w, hok, hw⟩ := makeSpace_ok mem h hs hcount
  cases place with
  | none => exact ⟨false, w, by simp only [insertWith, ok_bind hok]; rfl, nofun, nofun⟩
  | some p =>
    obtain ⟨rfl, hm, hgap⟩ := hw p rfl
    obtain ⟨b, hputok, hxs, ht⟩ := hput w hgap
    have hsz := hgap.sz
    have hcap := hgap.cap
    have hb : b.Holds 0 (l1 ++ xs ++ l2) := by
      refine holds_append.2 ⟨holds_append.2 ⟨hgap.low.touched ht (.inl (by omega)), ?_⟩, ?_⟩
      · rwa [zero_add]
      · rw [zero_add, length_append]
        exact hgap.high.touched ht (.inr le_rfl)
    have hlen : w.sz + xs.length = (l1 ++ xs ++ l2).length := by
      simp only [length_append]
      omega
    refine reports_of_ok ?_ (rep_setMem hlen ht.size hgap.room hcap hb)
    simp only [insertWith, ok_bind hok, ok_bind hputok]
    rfl

theorem insertCount_ok (hs : SpaceFor e v count) (hu : Usable v l1.length count value)
    (hcount : 0 < count ∨ e.trivial = true ∨ l2 = []) :
    Reports false (insertCount e mem v l1.length count value)
      (Rep · (l1 ++ List.replicate count (value.eval e (l1 ++ l2)) ++ l2)) := by
  have hlen := length_replicate (n := count) (a := value.eval e (l1 ++ l2))
  have hins := insertWith_ok mem h (replicate count (value.eval e (l1 ++ l2)))
    (fun w place => uninitializedFill (value.get v w) count place w.mem)
    (by rwa [hlen]) (by rwa [hlen]) (by
      rw [hlen]
      intro w hgap
      have ⟨hsz, hcap, hroom, _, _, _⟩ := hgap
      refine uninitializedFill_ok (by omega) fun b ht => ?_
      exact get_ok l2 hu rfl (hgap.low.touched ht (.inl (by omega)))
        (by rw [ht.size]; omega) hgap.same)
  rwa [hlen] at hins

theorem insert_ok (hs : SpaceFor e v 1) (hu : Usable v l1.length 1 value) :
    Reports false (insert e mem v l1.length value)
      (Rep · (l1 ++ [value.eval e (l1 ++ l2)] ++ l2)) := by
  refine insertWith_ok mem h [value.eval e (l1 ++ l2)] _ hs (.inl Nat.one_pos) fun w hgap => ?_
  have hsz := hgap.sz
  have hcap : w.sz + 1 ≤ w.capacity := hgap.cap
  have hroom := hgap.room
  have hget := get_ok (e := e) l2 hu rfl hgap.low (by omega) hgap.same
  refine ⟨_, ?_, ⟨cell_set_self _ _ _, trivial⟩, touched_set _ _ _⟩
  simp only [ok_bind hget]
  exact construct_ok (show l1.length < w.mem.size by omega) _

/-- Inserting an empty range is all that works. -/
theorem insertRange_nil_ok (hcount : e.trivial = true ∨ l2 = []) :
    Reports false (insertRange e mem v l1.length []) (Rep · (l1 ++ l2)) := by
  have hins := insertWith_ok mem h []
    (fun w place => uninitializedCopy [] place w.mem) (.inl h.le) (.inr hcount)
    fun w hgap => uninitializedCopy_ok (by
      have ⟨hsz, hcap, hroom, _, _, _⟩ := hgap
      omega)
  rwa [append_nil] at hins

end

theorem eraseWith_ok (h : Rep v (l1 ++ xs ++ l2)) (hcount : 0 < xs.length ∨ e.trivial = true) :
    Returns (eraseWith e v l1.length xs.length) (Rep · (l1 ++ l2)) := by
  have ⟨hsz, hle, hroom, _⟩ := h
  simp only [length_append] at hsz
  obtain ⟨hl, hhigh⟩ := holds_append.1 h.holds
  obtain ⟨hlow, hmid⟩ := holds_append.1 hl
  rw [zero_add] at hmid hhigh
  rw [length_append] at hhigh
  obtain ⟨b1, hok, hb1, ht, hobj⟩ := closeGap_ok hhigh hmid.objects (by omega) hcount
  have hdes : b1.Destructible e.trivial (l1.length + l2.length) := by
    obtain hc | hc := hcount
    · exact hobj.destructible (by rw [ht.size]; omega) le_rfl (by omega) _
    · exact .inl hc
  obtain ⟨b2, hok2, ht2, -⟩ := destruct_ok hdes
  have hb2 : b2.Holds 0 (l1 ++ l2) := by
    refine Holds.touched (holds_append.2 ⟨hlow.touched ht (.inl (by omega)), ?_⟩) ht2
      (.inl (by simp))
    rwa [zero_add]
  refine ⟨_, ?_, rep_setMem length_append.symm (ht2.size.trans ht.size) hroom (by omega) hb2⟩
  have he : v.sz - xs.length = l1.length + l2.length := by omega
  simp only [eraseWith, he, Nat.add_sub_cancel_left, ok_bind hok, ok_bind hok2]
  rfl

/-! ## Sizes and whole contents -/

/-- The elements of a vector that was cleared, or is new, and has room for them. -/
theorem rep_constructFrom (h : Rep w []) (hcap : xs.length ≤ w.capacity)
    (get : Storage T → Nat → Except Err T)
    (hget : ∀ k x b, xs[k]? = some x → w.mem.Touched 0 k b → get b k = .ok x) :
    ∃ b, constructFrom get xs.length 0 w.mem = .ok b ∧
      Rep { w.setMem b with sz := xs.length } xs := by
  have hroom := h.room
  obtain ⟨b, hok, hb, ht⟩ := constructFrom_ok get (show 0 + xs.length ≤ w.mem.size by omega) (by
    intro k x b' hk ht
    rw [zero_add] at ht ⊢
    exact hget k x b' hk ht)
  exact ⟨b, hok, rep_setMem rfl ht.size hroom hcap hb⟩

section

variable (h : Rep v l)
include h

theorem resizeValue_shrinks (hlt : count < v.sz) (value : Ref T) :
    Reports mem (resizeValue e mem v count value) (Rep · (l.take count)) := by
  have ⟨hsz, hle, hroom, hholds⟩ := h
  obtain ⟨b, hok, ht⟩ := destructDown_ok (e := e)
    (hholds.objects.mono (zero_le count) (show v.sz ≤ _ by omega)) (by omega)
  have hlen : count = (l.take count).length := by simp; omega
  rw [← take_append_drop count l] at hholds
  have hnew := rep_setMem hlen ht.size hroom (by omega)
    ((holds_append.1 hholds).1.touched ht (.inl (by omega)))
  refine reports_of_ok ?_ hnew
  rw [resizeValue, if_pos hlt]
  simp only [ok_bind hok]
  rfl

theorem resizeValue_grows (hle : v.sz ≤ count) (hroom : Room e count)
    (hu : Usable v v.sz (count - v.sz) value) :
    Reports mem (resizeValue e mem v count value)
      (Rep · (l ++ List.replicate (count - l.length) (value.eval e l))) := by
  have hsz := h.sz
  rw [resizeValue, if_neg (by omega)]
  by_cases heq : v.sz = count
  · rw [if_neg (by omega), show count - l.length = 0 by omega, replicate_zero, append_nil]
    exact reports_of_ok rfl h
  rw [if_pos (by omega)]
  refine (reserve_ok mem h hroom).bind (fun _ => rfl) fun w hok ⟨hrep, hcap⟩ => ?_
  have ⟨hwsz, _, hwroom, hholds⟩ := hrep
  have hsame : v.sz + (count - v.sz) ≤ v.capacity → w.capacity = v.capacity := by
    intro hfit
    rw [reserve_of_le mem (by omega)] at hok
    cases hok
    rfl
  have hvalue : ∀ b', w.mem.Touched l.length (l.length + (count - l.length)) b' →
      value.get v w b' = .ok (value.eval e l) := by
    intro b' ht'
    have hget := get_ok (e := e) [] hu hsz (hholds.touched ht' (.inl (by omega)))
      (by rw [ht'.size]; omega) hsame
    rwa [append_nil] at hget
  obtain ⟨b, hfill, hxs, ht⟩ := uninitializedFill_ok (by omega) hvalue
  have hlen : count = (l ++ replicate (count - l.length) (value.eval e l)).length := by
    simp; omega
  have hnew := rep_setMem hlen ht.size hwroom hcap
    (holds_append.2 ⟨hholds.touched ht (.inl (by omega)), by rwa [zero_add]⟩)
  refine reports_of_ok ?_ hnew
  simp only [if_true, hwsz, ok_bind hfill]
  rfl

theorem assignFrom_ok (hroom : Room e xs.length) (get : Storage T → Nat → Except Err T)
    (hget : ∀ k x b, xs[k]? = some x → get b k = .ok x) :
    Reports mem (assignFrom e mem v xs.length get) (Rep · xs) := by
  obtain ⟨v1, hclear, h1, -⟩ := clear_ok h
  rw [assignFrom, ok_bind hclear]
  refine (reserve_ok mem h1 hroom).bind (fun _ => rfl) fun w _ ⟨hrep, hcap⟩ => ?_
  obtain ⟨b, hcons, hnew⟩ := rep_constructFrom hrep hcap get fun k x b hk _ => hget k x b hk
  exact reports_of_ok (ok_bind hcons _) hnew

theorem assignRange_ok (hroom : Room e xs.length) :
    Reports mem (assignRange e mem v xs) (Rep · xs) :=
  assignFrom_ok mem h hroom _ (fun _ _ _ hk => outside_eq hk)

theorem assignCount_ok (hroom : Room e count) (value : T) :
    Reports mem (assignCount e mem v count value) (Rep · (List.replicate count value)) := by
  have hlen := length_replicate (n := count) (a := value)
  have hassign := assignFrom_ok mem h (show Room e (replicate count value).length by rwa [hlen])
    (fun _ _ => .ok value) (fun k x _ hk => by rw [eq_of_mem_replicate (mem_of_getElem? hk)])
  rwa [hlen] at hassign

theorem assignList_ok (hroom : Room e xs.length) : Reports mem (assignList e mem v xs) (Rep · xs) :=
  (reserve_ok mem h hroom).bind (fun _ => rfl) fun _ _ hw => assignRange_ok mem hw.1 hroom

theorem copyAssign_ok (ho : Rep other xs) (hroom : Room e xs.length) :
    Returns (copyAssign e true v other) (Rep · xs) := by
  have ⟨hsz, hle, hsize, _⟩ := ho
  rw [copyAssign, hsz]
  refine (assignFrom_ok true h hroom (fun _ k => other.mem.read k) ?_).returns
  intro k x _ hk
  obtain ⟨hlt, -⟩ := List.getElem?_eq_some_iff.1 hk
  have hcell := ho.holds.getElem hk
  rw [zero_add] at hcell
  exact read_live (by omega) hcell

/-- Assigning a vector to itself reads the elements after they were destroyed. -/
theorem selfAssign_ok (htr : e.trivial = true ∨ l = []) :
    Returns (selfAssign e mem v) (Rep · l) := by
  have ⟨hsz, hle, hroom, _⟩ := h
  obtain ⟨v1, hclear, h1, hcap, hsame⟩ := clear_ok (e := e) h
  have hres := reserve_of_le mem (e := e) (show v.sz ≤ v1.capacity by omega)
  have hcons : ∃ b, constructFrom (fun b k => b.read k) v.sz 0 v1.mem = .ok b ∧
      Rep { v1.setMem b with sz := v.sz } l := by
    rw [hsz]
    refine rep_constructFrom h1 (by omega) _ fun k x b hk ht => ?_
    obtain htr | rfl := htr
    · rw [hsame htr] at ht
      obtain ⟨hlt, -⟩ := List.getElem?_eq_some_iff.1 hk
      have hcell := h.holds.getElem hk
      rw [zero_add, ← ht.cell k (.inr le_rfl)] at hcell
      exact read_live (by rw [ht.size]; omega) hcell
    · simp at hk
  obtain ⟨b, hok, hrep⟩ := hcons
  refine ⟨_, ?_, hrep⟩
  simp only [selfAssign, assignFrom, ok_bind hclear, ok_bind hres, if_true, ok_bind hok]
  rfl

end

/-! ## Construction -/

theorem constructCount_ok (hroom : Room e count) (value : T) :
    Returns (constructCount e true count value) (Rep · (List.replicate count value)) :=
  (resizeValue_grows true rep_empty (zero_le count) hroom
    (show Usable _ _ _ (.value value) from trivial)).returns

theorem constructDefault_ok (hroom : Room e count) : Returns (constructDefault e mem count)
      fun o => ∀ w, o = some w → Rep w (List.replicate count e.dflt) := by
  obtain ⟨r, v, hok, -, hv⟩ := reserve_ok mem rep_empty hroom
  cases r with
  | false => exact ⟨none, by simp only [constructDefault, ok_bind hok]; rfl, nofun⟩
  | true =>
    obtain ⟨hrep, hcap⟩ := hv rfl
    have hlen := length_replicate (n := count) (a := e.dflt)
    have hcons := rep_constructFrom hrep
      (show (replicate count e.dflt).length ≤ v.capacity by rwa [hlen]) (fun _ _ => .ok e.dflt)
      fun k x _ hk _ => by rw [eq_of_mem_replicate (mem_of_getElem? hk)]
    rw [hlen] at hcons
    obtain ⟨b, hfill, hnew⟩ := hcons
    refine ⟨some { v.setMem b with sz := count }, ?_, fun w hw => by cases hw; exact hnew⟩
    simp only [constructDefault, ok_bind hok, if_true, uninitializedFill, ok_bind hfill]
    rfl

/-- Whatever is copied, the copy is empty. -/
theorem constructCopy_ok (hroom : Room e other.sz) :
    Returns (constructCopy e mem other) fun o => ∀ w, o = some w → Rep w [] := by
  obtain ⟨r, v, hok, -, hv⟩ := reserve_ok mem rep_empty hroom
  refine ⟨if r then some v else none, ?_, fun w hw => ?_⟩
  · simp only [constructCopy, ok_bind hok]
    rfl
  · cases r with
    | false => cases hw
    | true =>
      cases hw
      exact (hv rfl).1

theorem reserve_garbage (hlt : garbage < n) :
    reserve e true (⟨none, garbage, 0⟩ : Vec T) n = reserve e true .empty n := by
  have hempty : (Vec.empty : Vec T).capacity < n := lt_of_le_of_lt (zero_le _) hlt
  rw [reserve, reserve, if_pos hlt, if_pos hempty]
  rfl

/-- The capacity that was in memory before does no harm if it is less than what is needed. -/
theorem constructList_ok (hroom : Room e xs.length) (hg : garbage = 0 ∨ garbage < xs.length) :
    Returns (constructList e true garbage xs) (Rep · xs) := by
  refine Reports.returns ?_
  have hlist := assignList_ok true rep_empty hroom
  obtain rfl | hlt := hg
  · exact hlist
  · rw [assignList, reserve_garbage hlt]
    exact hlist

end Dgos.L1.Vector
