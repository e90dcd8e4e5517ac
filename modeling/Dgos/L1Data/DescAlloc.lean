import Dgos.Core.Outcome

/-!
# The descriptor allocator `desc_alloc_t` (kernel/lib/desc_alloc.cc)

4096 descriptors in 64 groups of 64. Bit `b` of `level1[g]` says that descriptor `64 g + b`
is used, bit `g` of `level0` is meant to say that the whole group `g` is used. `alloc` takes
the lowest group whose bit in `level0` is clear and asserts that it has a free descriptor.

The words are 64-bit vectors; `bit_lsb_set` counts trailing zeros. Each call runs under
`alloc_lock`, so a history is a list of calls. A failed `assert` is `Err.assert`.

`Calls.next` and `Calls.answer` say what the calls are for: the set of held descriptors
and the answers that go with it.

Both `alloc` and `take_locked` clear the bit of a group in `level0` when the group becomes
full, where it should be set.

Results:
* `exec_spec`: a call made when the two levels agree answers as it should; it leaves the
  levels in agreement exactly when it does not fill a group.
* `calls_right_iff`: a history is right from the first call to the last exactly when no call
  of it fills a group.
* `alloc_after_full`: the call after an `alloc` that filled a group fails its assertion.
-/
namespace Dgos.L1.DescAlloc

open Function List Finset Int Fin
open BitVec (allOnes getLsbD_and getLsbD_not)
open Nat (mod_lt)

inductive Err
  | assert
  deriving DecidableEq, Repr

/-- `desc_alloc_t`.
mirrors desc_alloc.h:6-24 -/
structure St where
  level0 : BitVec 64
  level1 : Fin 64 → BitVec 64
  deriving DecidableEq

open St

/-- The allocator of a new process, all zero. -/
def St.zero : St := ⟨0, fun _ => 0⟩

/-- `bit_lsb_set`.
mirrors bitsearch.h:7-16 -/
def bitLsbSet (n : BitVec 64) : Nat := n.ctz.toNat

/-- `uint64_t(1) << bit` -/
def bit (b : Nat) : BitVec 64 := 1#64 <<< b

/-- Both `alloc` and `take_locked` end like this: mark the descriptor and, when its group
became full, clear the bit of the group in `level0`.
mirrors desc_alloc.cc:23-28 and 79-84 -/
def St.mark (s : St) (bitlvl0 : Fin 64) (bitlvl1 : Nat) : St :=
  let mask := s.level1 bitlvl0 ||| bit bitlvl1
  { level0 := if mask = BitVec.allOnes 64 then s.level0 &&& ~~~bit bitlvl0 else s.level0
    level1 := update s.level1 bitlvl0 mask }

instance neZero : NeZero 64 := ⟨by decide⟩

/-- `desc_alloc_t::alloc`. The index into `level1` is the number of a bit of a 64-bit word.
mirrors desc_alloc.cc:4-31 -/
def alloc (s : St) : Except Err (Int × St) :=
  if s.level0 = BitVec.allOnes 64 then .ok (-1, s)
  else
    let bitlvl0 := Fin.ofNat 64 (bitLsbSet (~~~s.level0))
    let mask := s.level1 bitlvl0
    if mask = BitVec.allOnes 64 then .error .assert
    else
      let bitlvl1 := bitLsbSet (~~~mask)
      .ok ((bitlvl0.val <<< 6 + bitlvl1 : Nat), s.mark bitlvl0 bitlvl1)

/-- `desc_alloc_t::free`.
mirrors desc_alloc.cc:33-55 -/
def free (s : St) (fd : Int) : Except Err St :=
  if ¬ (0 ≤ fd ∧ fd < 4096) then .error .assert
  else
    let bitlvl0 := Fin.ofNat 64 (fd.toNat >>> 6)
    let bitlvl1 := fd.toNat &&& 63
    let mask := s.level1 bitlvl0
    let clr := bit bitlvl1
    if mask &&& clr = 0 then .error .assert
    else .ok { level0 := s.level0 &&& ~~~bit bitlvl0
               level1 := update s.level1 bitlvl0 (mask &&& ~~~clr) }

/-- `desc_alloc_t::take_locked`, and `desc_alloc_t::take` of one descriptor.
mirrors desc_alloc.cc:57-87 -/
def take (s : St) (fd : Int) : Except Err (Bool × St) :=
  if ¬ (0 ≤ fd ∧ fd < 4096) then .error .assert
  else
    let bitlvl0 := Fin.ofNat 64 (fd.toNat >>> 6)
    let bitlvl1 := fd.toNat &&& 63
    if s.level1 bitlvl0 &&& bit bitlvl1 ≠ 0 then .ok (false, s)
    else .ok (true, s.mark bitlvl0 bitlvl1)

/-- `desc_alloc_t::take` of a list.
mirrors desc_alloc.cc:89-96 -/
def takeList (s : St) : List Int → Except Err (Bool × St)
  | [] => .ok (true, s)
  | fd :: fds => do
    let (r, s) ← take s fd
    let (rs, s) ← takeList s fds
    return (r && rs, s)

/-! ## What the calls are for -/

/-- A descriptor. -/
abbrev Fd := Fin 4096

/-- A call on the allocator. -/
inductive Op
  | alloc
  | take (fd : Fd)
  | free (fd : Fd)

/-- What a call returns. -/
inductive Ret
  | fd (n : Int)
  | taken (b : Bool)
  | freed

def exec (s : St) : Op → Except Err (Ret × St)
  | .alloc => (alloc s).map fun r => (.fd r.1, r.2)
  | .take fd => (take s fd.val).map fun r => (.taken r.1, r.2)
  | .free fd => (free s fd.val).map fun s' => (.freed, s')

/-- The descriptors that are held. -/
abbrev Held := Finset Fd

namespace Calls

/-- The smallest descriptor that is not held; `⊤` when all are. -/
def smallest (H : Held) : WithTop Fd := Hᶜ.min

def hold (H : Held) : WithTop Fd → Held
  | none => H
  | some fd => insert fd H

def fdOrFail : WithTop Fd → Int
  | none => -1
  | some fd => fd.val

/-- The held descriptors after a call. -/
def next (H : Held) : Op → Held
  | .alloc => hold H (smallest H)
  | .take fd => insert fd H
  | .free fd => H.erase fd

/-- What the call has to answer. -/
def answer (H : Held) : Op → Ret
  | .alloc => .fd (fdOrFail (smallest H))
  | .take fd => .taken (fd ∉ H)
  | .free _ => .freed

/-- The call with this answer hands out `fd`. -/
def HandsOut (op : Op) (r : Ret) (fd : Fd) : Prop :=
  op = .alloc ∧ r = .fd fd.val ∨ op = .take fd ∧ r = .taken true

/-- Only held descriptors are freed. -/
def Legal (H : Held) : List Op → Prop
  | [] => True
  | op :: ops => (∀ fd, op = .free fd → fd ∈ H) ∧ Legal (next H op) ops

end Calls

open Calls

/-- The group of a descriptor. -/
def grp (fd : Fd) : Fin 64 := ⟨fd.val / 64, by omega⟩

/-- Bit `g` of `level0` is set exactly when all bits of `level1[g]` are, and the bits of
`level1` are the held descriptors. -/
structure Sound (s : St) (H : Held) : Prop where
  summary : ∀ g : Fin 64, s.level0.getLsbD g = true ↔ s.level1 g = BitVec.allOnes 64
  marks : ∀ fd : Fd, (s.level1 (grp fd)).getLsbD (fd.val % 64) = true ↔ fd ∈ H

/-- The history is right: in every state the levels are sound, no assertion fails, every
call answers as it should, and no descriptor is handed out that is held. -/
def Right : St → Held → List Op → Prop
  | s, H, [] => Sound s H
  | s, H, op :: ops => Sound s H ∧ ∃ s', exec s op = .ok (answer H op, s') ∧
      (∀ fd, HandsOut op (answer H op) fd → fd ∉ H) ∧ Right s' (next H op) ops

/-- All descriptors of the group are held. -/
def GroupFull (H : Held) (g : Fin 64) : Prop := ∀ fd, grp fd = g → fd ∈ H

/-- The call takes the last free descriptor of a group. -/
def Fills (H : Held) (op : Op) : Prop := ∃ g, ¬ GroupFull H g ∧ GroupFull (next H op) g

def NoFill : Held → List Op → Prop
  | _, [] => True
  | H, op :: ops => ¬ Fills H op ∧ NoFill (next H op) ops

/-! ## Words -/

variable {b n i : Nat} {m : BitVec 64} {fd fd' : Fd} {g : Fin 64} {s : St} {H : Held} {op : Op}

theorem getLsbD_bit (hi : i < 64) : (bit b).getLsbD i = decide (i = b) := by
  simp only [bit, BitVec.getLsbD_shiftLeft, BitVec.getLsbD_one, hi]
  rcases lt_trichotomy i b with h | rfl | h
  · simp [h, ne_of_lt h]
  · simp
  · simp [not_lt.mpr (le_of_lt h), Nat.ne_of_gt h, Nat.sub_ne_zero_of_lt h]

theorem and_bit_eq_zero (hb : b < 64) : m &&& bit b = 0 ↔ m.getLsbD b = false := by
  constructor
  · intro h
    have := congrArg (·.getLsbD b) h
    simpa [getLsbD_bit hb] using this
  · intro h
    refine BitVec.eq_of_getLsbD_eq fun i hi => ?_
    rw [getLsbD_and, getLsbD_bit hi]
    by_cases hib : i = b
    · simp [hib, h]
    · simp [hib]

theorem eq_allOnes_iff : m = allOnes 64 ↔ ∀ i < 64, m.getLsbD i = true := by
  constructor
  · rintro rfl i hi
    rw [BitVec.getLsbD_allOnes, decide_eq_true hi]
  · intro h
    refine BitVec.eq_of_getLsbD_eq fun i hi => ?_
    rw [h i hi, BitVec.getLsbD_allOnes, decide_eq_true hi]

/-- The search of `alloc`: the first clear bit of a word that is not all ones. -/
theorem bitLsbSet_not (hm : m ≠ allOnes 64) :
    bitLsbSet (~~~m) < 64 ∧ m.getLsbD (bitLsbSet (~~~m)) = false ∧
      ∀ i < bitLsbSet (~~~m), m.getLsbD i = true := by
  have hne : ~~~m ≠ 0 := by
    intro h
    exact hm (by rw [← BitVec.not_not (b := m), h]; rfl)
  have hset := BitVec.getLsbD_true_ctz_of_ne_zero hne
  have hlt : bitLsbSet (~~~m) < 64 := BitVec.lt_of_getLsbD hset
  refine ⟨hlt, ?_, fun i hi => ?_⟩
  · rw [getLsbD_not, Bool.and_eq_true] at hset
    exact Bool.not_eq_true' _ ▸ hset.2
  · have hlow := BitVec.getLsbD_false_of_lt_ctz hi
    rw [getLsbD_not, decide_eq_true (lt_trans hi hlt)] at hlow
    simpa using hlow

theorem bitLsbSet_not_eq (hi : i < 64) (hclear : m.getLsbD i = false)
    (hbelow : ∀ j < i, m.getLsbD j = true) : m ≠ allOnes 64 ∧ bitLsbSet (~~~m) = i := by
  have hm : m ≠ allOnes 64 := by
    intro hone
    rw [eq_allOnes_iff.mp hone i hi] at hclear
    cases hclear
  obtain ⟨-, hclear', hbelow'⟩ := bitLsbSet_not hm
  refine ⟨hm, le_antisymm (le_of_not_gt fun hlt => ?_) (le_of_not_gt fun hlt => ?_)⟩
  · rw [hbelow' i hlt] at hclear
    cases hclear
  · rw [hbelow _ hlt] at hclear'
    cases hclear'

/-! ## Descriptors -/

theorem grp_ofNat (fd : Fd) : Fin.ofNat 64 (fd.val >>> 6) = grp fd := by
  apply Fin.ext
  simp only [Fin.ofNat, grp, Nat.shiftRight_eq_div_pow]
  omega

theorem and_63 (n : Nat) : n &&& 63 = n % 64 := Nat.and_two_pow_sub_one_eq_mod n 6

/-- Descriptor `64 g + b`. -/
def fdAt (g : Fin 64) {b : Nat} (hb : b < 64) : Fd := ⟨64 * g.val + b, by omega⟩

@[simp] theorem grp_fdAt (g : Fin 64) (hb : b < 64) : grp (fdAt g hb) = g := by
  apply Fin.ext
  simp only [grp, fdAt]
  omega

@[simp] theorem fdAt_mod (g : Fin 64) (hb : b < 64) : (fdAt g hb).val % 64 = b := by
  simp only [fdAt]
  omega

theorem eq_of_grp_of_mod (hg : grp fd = grp fd') (hm : fd.val % 64 = fd'.val % 64) : fd = fd' := by
  have := congrArg Fin.val hg
  simp only [grp] at this
  apply Fin.ext
  omega

/-- A word of `level1` whose bits are the held descriptors of its group. -/
theorem allOnes_iff_groupFull (h : ∀ fd, grp fd = g → (m.getLsbD (fd.val % 64) = true ↔ fd ∈ H)) :
    m = allOnes 64 ↔ GroupFull H g := by
  rw [eq_allOnes_iff]
  constructor
  · intro hall fd hfd
    exact (h fd hfd).mp (hall _ (mod_lt _ (by decide)))
  · intro hfull i hi
    have := (h (fdAt g hi) (grp_fdAt g hi)).mpr (hfull _ (grp_fdAt g hi))
    rwa [fdAt_mod] at this

theorem ne_of_grp_ne (hg : grp fd' ≠ grp fd) : fd' ≠ fd := fun h => hg (h ▸ rfl)

theorem mod_eq_iff (hg : grp fd' = grp fd) : fd'.val % 64 = fd.val % 64 ↔ fd' = fd :=
  ⟨eq_of_grp_of_mod hg, fun h => h ▸ rfl⟩

theorem groupFull_insert_of_ne (hg : g ≠ grp fd) : GroupFull (insert fd H) g ↔ GroupFull H g := by
  refine forall₂_congr fun fd' hfd' => ?_
  rw [mem_insert, or_iff_right]
  rintro rfl
  exact hg hfd'.symm

theorem fd_in_range (fd : Fd) : ¬ ¬ (0 ≤ (fd.val : Int) ∧ (fd.val : Int) < 4096) := by omega

theorem fills_insert (hfd : fd ∉ H) (hnext : next H op = insert fd H) :
    Fills H op ↔ GroupFull (insert fd H) (grp fd) := by
  rw [Fills, hnext]
  constructor
  · rintro ⟨g, hnot, hfull⟩
    by_cases hg : g = grp fd
    · exact hg ▸ hfull
    · exact absurd ((groupFull_insert_of_ne hg).mp hfull) hnot
  · exact fun hfull => ⟨grp fd, fun hall => hfd (hall fd rfl), hfull⟩

theorem not_fills_of_subset (hsub : next H op ⊆ H) : ¬ Fills H op := by
  rintro ⟨g, hnot, hfull⟩
  exact hnot fun fd hg => hsub (hfull fd hg)

section Steps

variable (h : Sound s H)
include h

theorem Sound.bit_iff (g : Fin 64) (hb : b < 64) :
    (s.level1 g).getLsbD b = true ↔ fdAt g hb ∈ H := by
  have := h.marks (fdAt g hb)
  rwa [grp_fdAt, fdAt_mod] at this

/-! ## The calls -/

theorem Sound.full_iff (g : Fin 64) : s.level1 g = allOnes 64 ↔ GroupFull H g :=
  allOnes_iff_groupFull fun fd hfd => hfd ▸ h.marks fd

theorem marks_update {H' : Held}
    (hin : ∀ fd', grp fd' = grp fd → (m.getLsbD (fd'.val % 64) = true ↔ fd' ∈ H'))
    (hout : ∀ fd', grp fd' ≠ grp fd → (fd' ∈ H' ↔ fd' ∈ H)) (fd' : Fd) :
    (update s.level1 (grp fd) m (grp fd')).getLsbD (fd'.val % 64) = true ↔ fd' ∈ H' := by
  by_cases hg : grp fd' = grp fd
  · rw [hg, update_self]
    exact hin fd' hg
  · rw [update_of_ne hg, hout fd' hg]
    exact h.marks fd'

theorem or_bit_marks (fd fd' : Fd) (hg : grp fd' = grp fd) :
    (s.level1 (grp fd) ||| bit (fd.val % 64)).getLsbD (fd'.val % 64) = true ↔
      fd' ∈ insert fd H := by
  rw [BitVec.getLsbD_or, getLsbD_bit (mod_lt _ (by decide)), Bool.or_eq_true,
    decide_eq_true_iff, ← hg, h.marks, mod_eq_iff hg, mem_insert, or_comm]

/-- Marking a free descriptor keeps the levels sound unless its group becomes full. -/
theorem mark_sound (hfd : fd ∉ H) :
    Sound (s.mark (grp fd) (fd.val % 64)) (insert fd H) ↔ ¬ GroupFull (insert fd H) (grp fd) := by
  have hfull : s.level1 (grp fd) ||| bit (fd.val % 64) = allOnes 64 ↔
      GroupFull (insert fd H) (grp fd) := allOnes_iff_groupFull (or_bit_marks h fd)
  constructor
  · intro h' hf
    have hone := hfull.mpr hf
    have hset := (h'.summary (grp fd)).mpr (by
      simp only [mark, update_self]
      exact hone)
    simp only [mark, if_pos hone, getLsbD_and, getLsbD_not, getLsbD_bit (grp fd).isLt] at hset
    simp at hset
  · intro hf
    have hnot : ¬ s.level1 (grp fd) ||| bit (fd.val % 64) = allOnes 64 :=
      fun hone => hf (hfull.mp hone)
    refine ⟨fun g => ?_, marks_update h (or_bit_marks h fd) fun fd' hg => ?_⟩
    · simp only [mark, if_neg hnot]
      by_cases hg : g = grp fd
      · rw [hg, update_self, h.summary, h.full_iff, hfull]
        exact iff_of_false (fun hall => hfd (hall fd rfl)) hf
      · rw [update_of_ne hg, h.summary]
    · rw [mem_insert, or_iff_right (ne_of_grp_ne hg)]

theorem alloc_none (hmin : smallest H = ⊤) : alloc s = .ok (-1, s) := by
  have hall : ∀ fd, fd ∈ H := by
    intro fd
    by_contra hfd
    rw [smallest, Finset.min_eq_top] at hmin
    exact Finset.notMem_empty fd (hmin ▸ Finset.mem_compl.mpr hfd)
  have hone : s.level0 = allOnes 64 := by
    refine eq_allOnes_iff.mpr fun i hi => ?_
    exact (h.summary ⟨i, hi⟩).mpr ((h.full_iff _).mpr fun fd _ => hall fd)
  rw [alloc, if_pos hone]

section

variable (hmin : smallest H = fd)
include hmin

/-- What lies below the smallest free descriptor: full groups, and set bits in its own. -/
theorem below_smallest : fd ∉ H ∧ (∀ i < (grp fd).val, s.level0.getLsbD i = true) ∧
      ∀ j < fd.val % 64, (s.level1 (grp fd)).getLsbD j = true := by
  have hheld : ∀ fd' < fd, fd' ∈ H := by
    intro fd' hlt
    by_contra hfd'
    exact absurd hlt (not_lt.mpr (min_le_of_eq (mem_compl.mpr hfd') hmin))
  refine ⟨mem_compl.mp (mem_of_min hmin), fun i hi => ?_, fun j hj => ?_⟩
  · have hi64 : i < 64 := lt_trans hi (grp fd).isLt
    refine (h.summary ⟨i, hi64⟩).mpr ((h.full_iff _).mpr fun fd' hg => hheld fd' ?_)
    have := congrArg Fin.val hg
    simp only [grp] at this hi
    exact lt_def.mpr (by omega)
  · have hj64 : j < 64 := by omega
    refine (h.bit_iff (grp fd) hj64).mpr (hheld _ (lt_def.mpr ?_))
    simp only [fdAt, grp]
    omega

/-- `alloc` finds the lowest group with a free descriptor and the lowest one in it. -/
theorem alloc_some : fd ∉ H ∧ alloc s = .ok ((fd.val : Int), s.mark (grp fd) (fd.val % 64)) := by
  obtain ⟨hfd, hgroups, hbits⟩ := below_smallest h hmin
  have hclear : (s.level1 (grp fd)).getLsbD (fd.val % 64) = false := by
    rw [← Bool.not_eq_true, h.marks]
    exact hfd
  obtain ⟨h1, hlsb1⟩ := bitLsbSet_not_eq (mod_lt _ (by decide)) hclear hbits
  have hclear0 : s.level0.getLsbD (grp fd) = false := by
    rw [← Bool.not_eq_true, h.summary]
    exact h1
  obtain ⟨h0, hlsb0⟩ := bitLsbSet_not_eq (grp fd).isLt hclear0 hgroups
  refine ⟨hfd, ?_⟩
  rw [alloc, if_neg h0]
  simp only [hlsb0, ofNat_val_eq_self, if_neg h1, hlsb1, Nat.shiftLeft_eq]
  rw [show (grp fd).val * 2 ^ 6 + fd.val % 64 = fd.val by simp only [grp]; omega]

theorem alloc_after_full (hfull : GroupFull (insert fd H) (grp fd)) :
    alloc (s.mark (grp fd) (fd.val % 64)) = .error .assert := by
  obtain ⟨hfd, hgroups, -⟩ := below_smallest h hmin
  have hone : s.level1 (grp fd) ||| bit (fd.val % 64) = allOnes 64 :=
    (allOnes_iff_groupFull (or_bit_marks h fd)).mpr hfull
  have hlevel0 : (s.mark (grp fd) (fd.val % 64)).level0 = s.level0 &&& ~~~bit (grp fd) := by
    simp only [mark, if_pos hone]
  obtain ⟨h0, hlsb0⟩ := bitLsbSet_not_eq (m := s.level0 &&& ~~~bit (grp fd)) (grp fd).isLt
    (by simp [getLsbD_bit (grp fd).isLt]) (fun i hi => by
      have hi64 : i < 64 := lt_trans hi (grp fd).isLt
      rw [getLsbD_and, getLsbD_not, getLsbD_bit hi64, hgroups i hi]
      simp [hi64, ne_of_lt hi])
  rw [alloc, hlevel0, if_neg h0]
  simp only [hlsb0, ofNat_val_eq_self, mark, update_self, if_pos hone]

end

theorem take_held (hfd : fd ∈ H) : take s fd.val = .ok (false, s) := by
  have hset : s.level1 (grp fd) &&& bit (fd.val % 64) ≠ 0 := by
    rw [ne_eq, and_bit_eq_zero (mod_lt _ (by decide)), (h.marks fd).mpr hfd]
    exact Bool.noConfusion
  simp only [take, if_neg (fd_in_range fd), toNat_natCast, grp_ofNat, and_63, if_pos hset]

theorem take_free (hfd : fd ∉ H) : take s fd.val = .ok (true, s.mark (grp fd) (fd.val % 64)) := by
  have hclear : s.level1 (grp fd) &&& bit (fd.val % 64) = 0 := by
    rw [and_bit_eq_zero (mod_lt _ (by decide)), ← Bool.not_eq_true, h.marks]
    exact hfd
  simp only [take, if_neg (fd_in_range fd), toNat_natCast, grp_ofNat, and_63, hclear,
    ne_eq, not_true_eq_false, if_false]

theorem free_held (hfd : fd ∈ H) : ∃ s', free s fd.val = .ok s' ∧ Sound s' (H.erase fd) := by
  have hset : ¬ s.level1 (grp fd) &&& bit (fd.val % 64) = 0 := by
    rw [and_bit_eq_zero (mod_lt _ (by decide)), (h.marks fd).mpr hfd]
    exact Bool.noConfusion
  have hmarks : ∀ fd', grp fd' = grp fd →
      ((s.level1 (grp fd) &&& ~~~bit (fd.val % 64)).getLsbD (fd'.val % 64) = true ↔
        fd' ∈ H.erase fd) := by
    intro fd' hg
    have hlt : fd'.val % 64 < 64 := mod_lt _ (by decide)
    rw [getLsbD_and, getLsbD_not, getLsbD_bit hlt, decide_eq_true hlt,
      Bool.true_and, Bool.and_eq_true, Bool.not_eq_true', decide_eq_false_iff_not, mod_eq_iff hg,
      ← hg, h.marks, mem_erase, and_comm]
  have heq : free s fd.val = .ok ⟨s.level0 &&& ~~~bit (grp fd), update s.level1 (grp fd)
        (s.level1 (grp fd) &&& ~~~bit (fd.val % 64))⟩ := by
    simp only [free, if_neg (fd_in_range fd), toNat_natCast, grp_ofNat, and_63, if_neg hset]
  refine ⟨_, heq, ⟨fun g => ?_, marks_update h hmarks fun fd' hg => ?_⟩⟩
  · simp only
    rw [getLsbD_and, getLsbD_not, getLsbD_bit g.isLt, decide_eq_true g.isLt,
      Bool.true_and, Bool.and_eq_true, Bool.not_eq_true', decide_eq_false_iff_not, h.summary]
    by_cases hg : g = grp fd
    · -- the freed descriptor's own bit is clear now
      subst hg
      rw [update_self, allOnes_iff_groupFull hmarks]
      exact iff_of_false (fun hne => hne.2 rfl) (fun hall => notMem_erase fd H (hall fd rfl))
    · rw [update_of_ne hg]
      exact and_iff_left fun he => hg (Fin.ext he)
  · rw [mem_erase]
    exact and_iff_right (ne_of_grp_ne hg)

/-! ## A call, and a history -/

theorem sound_iff_not_fills (hnext : next H op = H) : Sound s (next H op) ↔ ¬ Fills H op :=
  iff_of_true (hnext.symm ▸ h) (not_fills_of_subset (subset_of_eq hnext))

theorem mark_sound_iff_not_fills (hfd : fd ∉ H) (hnext : next H op = insert fd H) :
    Sound (s.mark (grp fd) (fd.val % 64)) (next H op) ↔ ¬ Fills H op := by
  rw [fills_insert hfd hnext, hnext, mark_sound h hfd]

theorem exec_spec (op : Op) (hop : ∀ fd, op = .free fd → fd ∈ H) :
    ∃ s', exec s op = .ok (answer H op, s') ∧ (Sound s' (next H op) ↔ ¬ Fills H op) := by
  cases op with
  | alloc =>
    cases hmin : smallest H with
    | top =>
      refine ⟨s, ?_, sound_iff_not_fills h (by rw [Calls.next, hmin]; rfl)⟩
      rw [exec, alloc_none h hmin, answer, hmin]
      rfl
    | coe fd =>
      obtain ⟨hfd, heq⟩ := alloc_some h hmin
      refine ⟨_, ?_, mark_sound_iff_not_fills h hfd (by rw [Calls.next, hmin]; rfl)⟩
      rw [exec, heq, answer, hmin]
      rfl
  | take fd =>
    by_cases hfd : fd ∈ H
    · refine ⟨s, ?_, sound_iff_not_fills h (insert_eq_of_mem hfd)⟩
      rw [exec, take_held h hfd, answer, decide_eq_false (not_not_intro hfd)]
      rfl
    · refine ⟨_, ?_, mark_sound_iff_not_fills h hfd rfl⟩
      rw [exec, take_free h hfd, answer, decide_eq_true hfd]
      rfl
  | free fd =>
    obtain ⟨s', heq, hs'⟩ := free_held h (hop fd rfl)
    refine ⟨s', ?_, iff_of_true hs' (not_fills_of_subset (erase_subset fd H))⟩
    rw [exec, heq]
    rfl

end Steps

theorem not_held_of_handsOut (hout : HandsOut op (answer H op) fd) : fd ∉ H := by
  rcases hout with ⟨rfl, hr⟩ | ⟨rfl, hr⟩
  · cases hmin : smallest H with
    | top =>
      simp only [answer, hmin, fdOrFail, Ret.fd.injEq] at hr
      omega
    | coe fd' =>
      simp only [answer, hmin, fdOrFail, Ret.fd.injEq, natCast_inj] at hr
      obtain rfl : fd' = fd := Fin.ext hr
      exact mem_compl.mp (mem_of_min hmin)
  · simpa [answer] using hr

theorem right_sound {ops : List Op} (h : Right s H ops) : Sound s H := by
  cases ops with
  | nil => exact h
  | cons op ops => exact h.1

theorem right_iff_noFill : ∀ {s : St} {H : Held} (ops : List Op), Sound s H → Legal H ops →
    (Right s H ops ↔ NoFill H ops)
  | _, _, [], h, _ => iff_of_true h trivial
  | s, H, op :: ops, h, hl => by
    obtain ⟨s', heq, hiff⟩ := exec_spec h op hl.1
    constructor
    · rintro ⟨-, s'', heq', -, hr⟩
      obtain rfl : s' = s'' := (Prod.mk.inj (Except.ok.inj (heq.symm.trans heq'))).2
      have hs' := right_sound hr
      exact ⟨hiff.mp hs', (right_iff_noFill ops hs' hl.2).mp hr⟩
    · rintro ⟨hf, hn⟩
      have hs' := hiff.mpr hf
      exact ⟨h, s', heq, fun fd => not_held_of_handsOut, (right_iff_noFill ops hs' hl.2).mpr hn⟩

theorem sound_zero : Sound zero ∅ where
  summary g := by
    simp only [zero]
    refine iff_of_false (by simp) (by decide)
  marks fd := by simp [zero]

/-- **Histories of calls.** Starting all zero, the two levels agree in every state, no
assertion fails, every call answers as it should and no held descriptor is handed out,
exactly when no call takes the last free descriptor of a group of 64. -/
theorem calls_right_iff (ops : List Op) (hl : Legal ∅ ops) : Right St.zero ∅ ops ↔ NoFill ∅ ops :=
  right_iff_noFill ops sound_zero hl

theorem calls_right_iff_sample : Legal ∅ [.take 7, .free 7, .alloc, .alloc] ∧
      (Right St.zero ∅ [.take 7, .free 7, .alloc, .alloc] ↔
        NoFill ∅ [.take 7, .free 7, .alloc, .alloc]) :=
  have hl : Legal ∅ [.take 7, .free 7, .alloc, .alloc] := by simp [Legal, Calls.next]
  ⟨hl, calls_right_iff _ hl⟩

/-- The state after a list of calls. -/
def run (s : St) : List Op → Except Err St
  | [] => .ok s
  | op :: ops => exec s op >>= fun r => run r.2 ops

theorem right_run : ∀ {s : St} {H : Held} (ops : List Op), Right s H ops →
    ∃ s' H', run s ops = .ok s' ∧ Sound s' H'
  | s, H, [], h => ⟨s, H, rfl, h⟩
  | s, H, op :: ops, h => by
    obtain ⟨-, s', heq, -, hr⟩ := h
    rw [run, ok_bind heq]
    exact right_run ops hr

/-! ## Filling the first group -/

/-- The first `n` descriptors. -/
def firstFds (n : Nat) : Held := Finset.univ.filter fun fd => fd.val < n

theorem mem_firstFds {fd : Fd} : fd ∈ firstFds n ↔ fd.val < n := by simp [firstFds]

theorem smallest_firstFds (hn : n < 4096) :
    smallest (firstFds n) = ((⟨n, hn⟩ : Fd) : WithTop Fd) := by
  refine le_antisymm (Finset.min_le ?_) (Finset.le_min fun fd hfd => ?_)
  · rw [Finset.mem_compl, mem_firstFds]
    exact lt_irrefl n
  · rw [mem_compl, mem_firstFds] at hfd
    exact WithTop.coe_le_coe.mpr (le_of_not_gt hfd)

theorem next_firstFds (hn : n < 4096) : next (firstFds n) .alloc = firstFds (n + 1) := by
  rw [Calls.next, smallest_firstFds hn]
  ext fd
  simp only [hold, mem_insert, mem_firstFds, Fin.ext_iff]
  omega

theorem run_append {s s' : St} : ∀ {ops ops' : List Op}, run s ops = .ok s' →
    run s (ops ++ ops') = run s' ops' := by
  intro ops
  induction ops generalizing s with
  | nil =>
    intro ops' h
    rw [Except.ok.inj h, nil_append]
  | cons op ops ih =>
    intro ops' h
    obtain ⟨r, hr, hrest⟩ := bind_eq_ok h
    rw [cons_append, run, ok_bind hr]
    exact ih hrest

/-- Up to 63 calls of `alloc` go well. -/
theorem run_allocs : ∀ (n : Nat) {k : Nat} {s : St}, Sound s (firstFds k) → k + n < 64 →
    ∃ s', run s (List.replicate n .alloc) = .ok s' ∧ Sound s' (firstFds (k + n))
  | 0, k, s, h, _ => ⟨s, rfl, h⟩
  | n + 1, k, s, h, hk => by
    obtain ⟨s1, heq, hiff⟩ := exec_spec h .alloc (by simp)
    have hnext := next_firstFds (show k < 4096 by omega)
    have hnot : ¬ Fills (firstFds k) .alloc := by
      rintro ⟨g, -, hfull⟩
      rw [hnext] at hfull
      have hlast : fdAt g (Nat.lt_succ_self 63) ∈ firstFds (k + 1) := hfull _ (grp_fdAt g _)
      rw [mem_firstFds, fdAt] at hlast
      simp only at hlast
      omega
    have h₁ := hiff.mpr hnot
    rw [hnext] at h₁
    obtain ⟨s', hrun, hs'⟩ := run_allocs n h₁ (by omega)
    refine ⟨s', ?_, by rwa [show k + (n + 1) = k + 1 + n by omega]⟩
    rw [replicate_succ, run, ok_bind heq]
    exact hrun

/-- After 64 calls of `alloc` group 0 is full and its bit in `level0` is clear; the next call
fails its assertion. -/
theorem sixty_four_allocs : ¬ Right St.zero ∅ (List.replicate 64 .alloc) ∧
      run St.zero (List.replicate 65 .alloc) = .error .assert := by
  have h0 : Sound zero (firstFds 0) := by simpa [firstFds] using sound_zero
  have hmin := smallest_firstFds (show 63 < 4096 by decide)
  have hfull : GroupFull (insert ⟨63, by decide⟩ (firstFds 63)) (grp ⟨63, by decide⟩) := by
    intro fd hg
    have := congrArg Fin.val hg
    simp only [grp] at this
    simp only [mem_insert, mem_firstFds, Fin.ext_iff]
    omega
  obtain ⟨s, hrun63, hs⟩ := run_allocs 63 h0 (by decide)
  obtain ⟨-, heq⟩ := alloc_some hs hmin
  have hasserts := alloc_after_full hs hmin hfull
  generalize s.mark (grp ⟨63, _⟩) (63 % 64) = s64 at heq hasserts
  have hrun64 : run zero (replicate 64 .alloc) = .ok s64 := by
    rw [show 64 = 63 + 1 from rfl, replicate_add, run_append hrun63, replicate_one, run, exec, heq]
    rfl
  constructor
  · intro hr
    obtain ⟨s', H', hrun, hs'⟩ := right_run _ hr
    cases hrun64.symm.trans hrun
    obtain ⟨s'', hok, -⟩ := exec_spec hs' .alloc (by simp)
    rw [exec, hasserts] at hok
    cases hok
  · rw [show 65 = 64 + 1 from rfl, replicate_add, run_append hrun64, replicate_one, run,
      exec, hasserts]
    rfl

end Dgos.L1.DescAlloc
