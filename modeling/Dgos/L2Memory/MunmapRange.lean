import Dgos.L2Memory.Munmap

/-!
# What `munmap` does to a range

The rounds of the loop clear every mapped page of the range exactly if no step of 1 GB passes over
a mapped page (`covers_iff`), and then what they release is what the entries of the range map, in
order (`frees_eq`).
-/
namespace Dgos.L2.PageTable

open List Bool Stand Leaf Nat

open ContigAlloc (Err pageSize w64)

/-! ## Steps of 1 GB -/

namespace Stand

/-- A step of 1 GB. -/
def Leaps (t : Tables) (s : Stand) : Prop := s.kind t = .giant ∨ s.kind t = .pass

/-- The first page that a step of 1 GB passes over. -/
def behind (t : Tables) (s : Stand) : Nat :=
  if s.kind t = .giant then (s.page / 2 ^ 18 + 1) * 2 ^ 18 else s.page

/-- A step of 1 GB passes over nothing that is mapped, except for the front of the page of 1 GB
that the next round clears. -/
def Passes (t : Tables) (en : Nat) (s : Stand) : Prop :=
  ∀ q, s.behind t ≤ q → q < s.page + 2 ^ 18 → q < en → Maps t q →
    s.page + 2 ^ 18 < en ∧ isPageSize (pteAt t 1 (s.page + 2 ^ 18)) = true ∧
      q / 2 ^ 18 = (s.page + 2 ^ 18) / 2 ^ 18

end Stand

section cover

variable {t : Tables} {first en q fuel : Nat} {s r : Stand}

theorem Maps.upper (h : Maps t q) : present (pteAt t 0 q) = true ∧ present (pteAt t 1 q) = true :=
  ⟨eq_true_of_not_eq_false fun hc => h (leaf_absent_top hc),
    eq_true_of_not_eq_false fun hc => h (leaf_absent_dirs hc)⟩

theorem Stand.kind_of_giant (h0 : present (pteAt t 0 s.page) = true)
    (h1 : present (pteAt t 1 s.page) = true) (hg : isPageSize (pteAt t 1 s.page) = true) :
    s.kind t = .giant := by
  have hm : s.mask t = 3 := by
    cases hs : s.stale with
    | true => exact mask_stale hs
    | false => rw [mask_fresh hs]; exact ptesPresent_three.2 ⟨h0, h1, .inl hg⟩
  rw [kind, hm, if_neg (by decide), if_pos rfl, if_pos hg]

/-- A round before a gigabyte page that is not in it. -/
theorem Stand.giant_next (hm : s.mask t ≠ 3) (hk : (s.next t).kind t = .giant) :
    s.page / 2 ^ 18 ≠ (s.next t).page / 2 ^ 18 := by
  intro hsame
  obtain ⟨h3, hg⟩ := kind_giant hk
  rw [mask_fresh (next_fresh hm)] at h3
  obtain ⟨h0, h1, -⟩ := ptesPresent_three.1 h3
  rw [← pteAt_same_dir t hsame (by omega)] at h0 h1 hg
  exact hm (kind_giant (kind_of_giant h0 h1 hg)).1

theorem Stand.clears_lt (h : s.Clears t q) : q < s.page + s.stride t := by
  unfold Clears at h
  unfold stride
  cases hk : s.kind t <;> rw [hk] at h <;> simp only [Kind.stride] at h ⊢ <;> omega

theorem Stand.leap_stride (h : s.Leaps t) : s.stride t = 2 ^ 18 := by
  unfold stride
  rcases h with h | h <;> rw [h, Kind.stride]

variable (hok : s.Ok t first) (hcut : NotCut t first en)
include hok hcut

theorem stands_mem (hr : r ∈ stands t en fuel s) : r.Ok t first ∧ r.page < en := by
  induction fuel generalizing s with
  | zero => cases hr
  | succ fuel ih =>
    unfold stands at hr
    split_ifs at hr with hen
    · rcases mem_cons.1 hr with rfl | hr
      · exact ⟨hok, hen⟩
      · exact ih (hok.next hcut hen) hr
    · cases hr

/-- Only a page of 1 GB is cleared from its middle. -/
theorem clears_before (hfuel : en - s.page < fuel) (hq : q < s.page) :
    (∃ r ∈ stands t en fuel s, r.Clears t q) ↔
      s.page < en ∧ s.kind t = .giant ∧ q / 2 ^ 18 = s.page / 2 ^ 18 := by
  induction fuel generalizing s with
  | zero => omega
  | succ fuel ih =>
    unfold stands
    by_cases hen : s.page < en
    swap
    · rw [if_neg hen]
      exact ⟨fun h => by simp at h, fun h => absurd h.1 hen⟩
    have hpos := s.stride_pos t
    have hpage : (s.next t).page = s.page + s.stride t := rfl
    rw [if_pos hen, exists_mem_cons_iff, ih (hok.next hcut hen) (by omega) (by omega)]
    constructor
    · rintro (hc | ⟨-, hk', hsame⟩)
      · unfold Clears at hc
        cases hk : s.kind t with
        | small => rw [hk] at hc; omega
        | large =>
          have := hok.aligned hcut hen hk
          rw [hk] at hc
          omega
        | giant => rw [hk] at hc; exact ⟨hen, rfl, hc⟩
        | pass => rw [hk] at hc; exact hc.elim
        | absent => rw [hk] at hc; exact hc.elim
      · by_cases hm : s.mask t = 3
        · have hstride : s.stride t = 2 ^ 18 := by
            rw [stride, kind, hm, if_neg (by decide), if_pos rfl]
            split <;> rfl
          omega
        · exact absurd (by omega) (giant_next hm hk')
    · rintro ⟨-, hk, hsame⟩
      left
      unfold Clears
      rw [hk]
      exact hsame

/-- A round that does not leap clears all that is mapped up to the next one. -/
theorem Stand.Ok.clears (hen : s.page < en) (hl : ¬ s.Leaps t) (h1 : s.page ≤ q) (h2 : q < (s.next t).page)
    (hm : Maps t q) : s.Clears t q := by
  rw [show (s.next t).page = s.page + s.stride t from rfl, stride] at h2
  unfold Clears
  cases hk : s.kind t with
  | small =>
    rw [hk, Kind.stride] at h2
    exact le_antisymm (by omega) h1
  | large =>
    have := hok.aligned hcut hen hk
    rw [hk, Kind.stride] at h2
    show q / 2 ^ 9 = s.page / 2 ^ 9
    omega
  | absent =>
    rw [hk, Kind.stride] at h2
    obtain rfl : q = s.page := by omega
    exact hm (kind_absent hk).2.2.2.2
  | giant => exact absurd (.inl hk) hl
  | pass => exact absurd (.inr hk) hl

/-- What a round leaves of the pages up to the next round. -/
theorem clears_step (hen : s.page < en) (hfuel : en - (s.next t).page < fuel) :
    (∀ q, s.page ≤ q → q < (s.next t).page → q < en → Maps t q →
      s.Clears t q ∨ ∃ r ∈ stands t en fuel (s.next t), r.Clears t q) ↔
    (s.Leaps t → s.Passes t en) := by
  have hnext := hok.next hcut hen
  have hpage : (s.next t).page = s.page + s.stride t := rfl
  by_cases hleap : s.Leaps t
  swap
  · exact iff_of_true (fun q h1 h2 _ hm => .inl (hok.clears hcut hen hleap h1 h2 hm))
      fun hl => absurd hl hleap
  rw [leap_stride hleap] at hpage
  have hclears : ∀ q, s.page ≤ q → q < s.page + 2 ^ 18 → (s.Clears t q ↔ q < s.behind t) := by
    intro q h1 h2
    unfold Clears behind
    rcases hleap with hk | hk
    · rw [hk, if_pos rfl]
      show q / 2 ^ 18 = s.page / 2 ^ 18 ↔ _
      omega
    · rw [hk, if_neg (by decide)]
      exact iff_of_false id (by omega)
  have hgiant : ∀ q, Maps t q → q / 2 ^ 18 = (s.next t).page / 2 ^ 18 →
      ((s.next t).kind t = .giant ↔ isPageSize (pteAt t 1 (s.page + 2 ^ 18)) = true) := by
    intro q hm hsame
    obtain ⟨h0, h1⟩ := hm.upper
    rw [pteAt_same_dir t hsame (by omega)] at h0 h1
    rw [← hpage]
    exact ⟨fun h => (kind_giant h).2, kind_of_giant h0 h1⟩
  constructor
  · intro h _ q hb h2 hlt hm
    have hpq : s.page ≤ q := le_trans (by
      unfold behind
      split <;> omega) hb
    rcases h q hpq (by omega) hlt hm with hc | hc
    · exact absurd ((hclears q hpq h2).1 hc) (by omega)
    · obtain ⟨he, hk', hsame⟩ := (clears_before hnext hcut hfuel (by omega)).1 hc
      rw [hpage] at he
      exact ⟨he, (hgiant q hm hsame).1 hk', by rw [← hpage]; exact hsame⟩
  · intro h q h1 h2 hlt hm
    rw [hpage] at h2
    by_cases hb : q < s.behind t
    · exact .inl ((hclears q h1 h2).2 hb)
    · obtain ⟨he, hg, hsame⟩ := h hleap q (by omega) h2 hlt hm
      rw [← hpage] at he hsame
      exact .inr ((clears_before hnext hcut hfuel (by omega)).2
        ⟨he, (hgiant q hm hsame).2 hg, hsame⟩)

variable (fuel) in
/-- Every mapped page of the range is cleared exactly if no step passes over one. -/
theorem covers_iff (hfuel : en - s.page < fuel) :
    (∀ q, s.page ≤ q → q < en → Maps t q → ∃ r ∈ stands t en fuel s, r.Clears t q) ↔
      ∀ r ∈ stands t en fuel s, r.Leaps t → r.Passes t en := by
  induction fuel generalizing s with
  | zero => omega
  | succ fuel ih =>
    unfold stands
    by_cases hen : s.page < en
    swap
    · rw [if_neg hen]
      exact iff_of_true (fun q h1 h2 => by omega) (forall_mem_nil _)
    have hpos := s.stride_pos t
    have hpage : (s.next t).page = s.page + s.stride t := rfl
    have hfuel' : en - (s.next t).page < fuel := by omega
    rw [if_pos hen, forall_mem_cons, ← ih (hok.next hcut hen) hfuel',
      ← clears_step hok hcut hen hfuel']
    simp only [exists_mem_cons_iff]
    constructor
    · intro h
      refine ⟨fun q h1 _ hlt hm => h q h1 hlt hm, fun q h1 hlt hm => ?_⟩
      exact (h q (by omega) hlt hm).resolve_left fun hc => absurd (clears_lt hc) (by omega)
    · rintro ⟨hstep, hlater⟩ q h1 hlt hm
      by_cases h2 : q < (s.next t).page
      · exact hstep q h1 h2 hlt hm
      · exact .inr (hlater q (by omega) hlt hm)

/-- The rounds clear nothing that maps a page outside of the range. -/
theorem clears_inside (hr : r ∈ stands t en fuel s) (hm : Maps t q) (hc : r.Clears t q) :
    first ≤ q ∧ q < en := by
  obtain ⟨hrok, hen⟩ := stands_mem hok hcut hr
  have hfirst := hrok.from_first
  unfold Clears at hc
  cases hk : r.kind t with
  | small =>
    rw [hk] at hc
    subst hc
    exact ⟨hfirst, hen⟩
  | large =>
    have hin := hcut r.page _ hfirst hen (kind_large hk).2.2.2.2
    rw [show pages ⟨2, pteAt t 2 r.page⟩ = 2 ^ 9 from rfl] at hin
    rw [hk] at hc
    omega
  | giant =>
    rw [hk] at hc
    obtain ⟨h0, h1⟩ := hm.upper
    rw [pteAt_same_dir t hc (by omega)] at h0 h1
    have hin := hcut r.page _ hfirst hen (leaf_giant h0 h1 (kind_giant hk).2)
    rw [show pages ⟨1, pteAt t 1 r.page⟩ = 2 ^ 18 from rfl] at hin
    omega
  | pass => rw [hk] at hc; exact hc.elim
  | absent => rw [hk] at hc; exact hc.elim

end cover

/-! ## What is released -/

/-- The physical pages behind the pages `[a, en)`, of the entries that pass a test. -/
def framesIn (test : Leaf → Bool) (t : Tables) (a en : Nat) : List Nat :=
  (List.range' a (en - a)).filterMap fun q =>
    (leaf t q).bind fun e => if test e then some (e.frame q) else none

/-- The entries whose pages `munmap` releases.
mirrors kernel/arch/x86_64/cpu/mmu.cc:2685, 2699, 2719 -/
def Leaf.freed (e : Leaf) : Bool :=
  if e.level = 3 then pteIsSysmem e.pte
  else e.pte &&& (pteExPhysical ||| ptePresent) = ptePresent

variable {b p a : Nat} {t : Tables}

theorem framesIn_append (test : Leaf → Bool) (t : Tables) {en : Nat} (hab : a ≤ b)
    (hb : b ≤ en) : framesIn test t a en = framesIn test t a b ++ framesIn test t b en := by
  obtain ⟨k, rfl⟩ := Nat.exists_eq_add_of_le hab
  obtain ⟨m, rfl⟩ := Nat.exists_eq_add_of_le hb
  unfold framesIn
  rw [← filterMap_append, Nat.add_sub_cancel_left, Nat.add_sub_cancel_left,
    range'_append_1, add_assoc, Nat.add_sub_cancel_left]

theorem framesIn_skip {test : Leaf → Bool} {en : Nat} (hab : a ≤ b)
    (h : ∀ q, a ≤ q → q < b → q < en → ¬ Maps t q) :
    framesIn test t a en = framesIn test t b en := by
  have hnil : ∀ c ≤ b, c ≤ en → framesIn test t a c = [] := by
    intro c hc hce
    refine filterMap_eq_nil_iff.2 fun q hq => ?_
    rw [mem_range'_1] at hq
    rw [not_not.1 (h q hq.1 (by omega) (by omega))]
    rfl
  by_cases hb : b ≤ en
  · rw [framesIn_append test t hab hb, hnil b (le_refl b) hb, nil_append]
  have hempty : framesIn test t b en = [] := by
    unfold framesIn
    rw [show en - b = 0 by omega]
    rfl
  rw [hempty]
  exact hnil en (by omega) (le_refl en)

/-- The pages of an entry that covers `[b, b + e.pages)`. -/
theorem framesIn_leaf (test : Leaf → Bool) {e : Leaf}
    (halign : b % e.pages = 0) (h : ∀ q, b ≤ q → q < b + e.pages → leaf t q = some e) :
    framesIn test t b (b + e.pages) =
      if test e then (List.range e.pages).map fun i =>
        (e.pte &&& maskNeg 64 pteAddr (2 ^ e.shift)) + i * pageSize
      else [] := by
  unfold framesIn
  rw [Nat.add_sub_cancel_left, range'_eq_map_range, filterMap_map]
  have hq : ∀ i ∈ range e.pages, ((fun q => (leaf t q).bind fun e =>
      if test e then some (e.frame q) else none) ∘ fun x => b + x) i =
      if test e then some ((e.pte &&& maskNeg 64 pteAddr (2 ^ e.shift)) + i * pageSize)
      else none := by
    intro i hi
    rw [mem_range] at hi
    have hmod : (b + i) % e.pages = i := by
      rw [add_mod, halign, zero_add, mod_mod, mod_eq_of_lt hi]
    rw [Function.comp_apply, h (b + i) (by omega) (by omega), Option.bind_some, frame, hmod]
  rw [filterMap_congr hq]
  split
  · rw [filterMap_eq_map']
  · exact filterMap_eq_nil_iff.2 fun _ _ => rfl

theorem Maps.leaf_giant {q : Nat} (h0 : present (pteAt t 0 p) = true)
    (h1 : present (pteAt t 1 p) = true) (hg : isPageSize (pteAt t 1 p) = true)
    (hq : q / 2 ^ 18 = p / 2 ^ 18) : leaf t q = some ⟨1, pteAt t 1 p⟩ := by
  rw [← pteAt_same_dir t hq (by omega)]
  refine PageTable.leaf_giant ?_ ?_ ?_
  · rw [pteAt_same_dir t hq (by omega)]; exact h0
  · rw [pteAt_same_dir t hq (by omega)]; exact h1
  · rw [pteAt_same_dir t hq (by omega)]; exact hg

theorem Maps.leaf_large {q : Nat} (h : leaf t p = some ⟨2, pteAt t 2 p⟩)
    (hq : q / 2 ^ 9 = p / 2 ^ 9) : leaf t q = some ⟨2, pteAt t 2 p⟩ := by
  have hc : ∀ l < 3, pteAt t l q = pteAt t l p := fun l hl => pteAt_same_table t hq hl
  unfold leaf at h ⊢
  split_ifs at ⊢ with h1 h2 h3 h4 h5 <;> simp_all

section release

variable {first en : Nat} {s : Stand}

/-- The first page that the rounds from here on account for. -/
def Stand.base (t : Tables) (en : Nat) (s : Stand) : Nat :=
  if s.page < en ∧ s.kind t = .giant then s.page / 2 ^ 18 * 2 ^ 18 else s.page

theorem Stand.base_of_ne (h : s.kind t ≠ .giant) : s.base t en = s.page :=
  if_neg fun hc => h hc.2

theorem Stand.base_next (hok : s.Ok t first) (hcut : NotCut t first en) (hen : s.page < en)
    (hm : s.mask t ≠ 3) : (s.next t).base t en = (s.next t).page := by
  by_cases hk : (s.next t).kind t = .giant
  swap
  · exact base_of_ne hk
  have hne := giant_next hm hk
  unfold base
  split
  swap
  · rfl
  have hpage : (s.next t).page = s.page + s.stride t := rfl
  have hstride := hok.stride_cases hcut hen hm
  omega

/-- After a step of 1 GB nothing mapped is left before the page that the next round accounts for. -/
theorem Stand.Passes.skip (h : s.Passes t en) (hl : s.Leaps t) {q : Nat} (hb : s.behind t ≤ q)
    (hq : q < (s.next t).base t en) (hen : q < en) : ¬ Maps t q := by
  intro hm
  have hpage : (s.next t).page = s.page + 2 ^ 18 := by
    rw [← leap_stride hl]
    rfl
  have hlt : q < s.page + 2 ^ 18 := by
    unfold base at hq
    split at hq <;> omega
  obtain ⟨he, hg, hsame⟩ := h q hb hlt hen hm
  obtain ⟨h0, h1⟩ := hm.upper
  rw [pteAt_same_dir t hsame (by omega), ← hpage] at h0 h1
  rw [← hpage] at he hg
  rw [base, if_pos ⟨he, kind_of_giant h0 h1 hg⟩] at hq
  omega

theorem Stand.frees_small (hk : s.kind t = .small) :
    s.frees t = framesIn freed t s.page (s.page + 1) := by
  obtain ⟨-, -, hw⟩ := kind_small hk
  unfold frees framesIn
  rw [hk, Nat.add_sub_cancel_left, range'_one, filterMap_cons, leaf_small hw]
  cases hp : present (pteAt t 3 s.page) with
  | false =>
    have hs : pteIsSysmem (pteAt t 3 s.page) = false := by
      refine eq_false_iff.2 fun hc => ?_
      have hbit := congrArg (·.testBit 0) (of_decide_eq_true hc)
      rw [testBit_and, show (pteAt t 3 s.page).testBit 0 = false from hp] at hbit
      cases hbit
    simp [hs]
  | true =>
    simp only [if_true, Option.bind_some, freed]
    split
    · have hmask : maskNeg 64 pteAddr (2 ^ 12) = pteAddr := by decide
      show _ = [(pteAt t 3 s.page &&& maskNeg 64 pteAddr (2 ^ 12)) + s.page % 1 * pageSize]
      rw [hmask, mod_one, zero_mul, add_zero]
    · rfl

theorem Stand.frees_large (hk : s.kind t = .large) (ha : s.page % 2 ^ 9 = 0) :
    s.frees t = framesIn freed t s.page (s.page + 2 ^ 9) := by
  obtain ⟨-, -, -, -, hleaf⟩ := kind_large hk
  have hrun := framesIn_leaf freed (e := ⟨2, pteAt t 2 s.page⟩)
    ha fun q h1 h2 => Maps.leaf_large hleaf (by
      change q < s.page + 2 ^ 9 at h2
      omega)
  rw [show pages ⟨2, pteAt t 2 s.page⟩ = 2 ^ 9 from rfl] at hrun
  rw [hrun, frees, hk]
  simp [hugeFrames, freed, shift]

theorem Stand.frees_giant (hk : s.kind t = .giant) (h0 : present (pteAt t 0 s.page) = true)
    (h1 : present (pteAt t 1 s.page) = true) : s.frees t =
      framesIn freed t (s.page / 2 ^ 18 * 2 ^ 18) (s.page / 2 ^ 18 * 2 ^ 18 + 2 ^ 18) := by
  obtain ⟨-, hg⟩ := kind_giant hk
  have hrun := framesIn_leaf freed
    (b := s.page / 2 ^ 18 * 2 ^ 18) (mul_mod_left _ _) fun q hq1 hq2 =>
      Maps.leaf_giant h0 h1 hg (by
        change q < s.page / 2 ^ 18 * 2 ^ 18 + 2 ^ 18 at hq2
        omega)
  rw [show pages ⟨1, pteAt t 1 s.page⟩ = 2 ^ 18 from rfl] at hrun
  rw [hrun, frees, hk]
  simp [hugeFrames, freed, shift]

theorem Stand.frees_not_present (hk : s.kind t = .giant)
    (h1 : present (pteAt t 1 s.page) = false) : s.frees t = [] := by
  unfold frees hugeFrames
  rw [hk]
  refine if_neg fun hc => ?_
  have hbit := congrArg (·.testBit 0) hc
  rw [testBit_and, show (pteAt t 1 s.page).testBit 0 = false from h1] at hbit
  cases hbit

theorem next_giga {q : Nat} (h : p / 2 ^ 18 * 2 ^ 18 ≤ q) (hne : q / 2 ^ 18 ≠ p / 2 ^ 18) :
    p / 2 ^ 18 * 2 ^ 18 + 2 ^ 18 ≤ q := by
  have hle := (le_div_iff_mul_le (by decide)).2 h
  rw [← succ_mul]
  exact (le_div_iff_mul_le (by decide)).1 (lt_of_le_of_ne hle hne.symm)

/-- The rounds release what the entries from here to the end map. -/
theorem frees_eq {fuel : Nat} (hok : s.Ok t first) (hcut : NotCut t first en)
    (hfuel : en - s.page < fuel)
    (hread : ∀ r ∈ stands t en fuel s, r.stale = true → present (pteAt t 0 r.page) = true)
    (hpass : ∀ r ∈ stands t en fuel s, r.Leaps t → r.Passes t en) :
    (stands t en fuel s).flatMap (·.frees t) = framesIn freed t (s.base t en) en := by
  induction fuel generalizing s with
  | zero => omega
  | succ fuel ih =>
    unfold stands at hread hpass ⊢
    by_cases hen : s.page < en
    swap
    · rw [if_neg hen, base, if_neg fun hc => hen hc.1, framesIn, Nat.sub_eq_zero_of_le
        (by omega)]
      rfl
    rw [if_pos hen] at hread hpass ⊢
    rw [forall_mem_cons] at hread hpass
    have hpos := s.stride_pos t
    have hpage : (s.next t).page = s.page + s.stride t := rfl
    rw [flatMap_cons, ih (hok.next hcut hen) (by omega) hread.2 hpass.2]
    cases hk : s.kind t with
    | small =>
      have hm := (kind_small hk).2.1
      rw [base_next hok hcut hen (by omega), base_of_ne (by rw [hk]; decide), hpage,
        stride, hk, frees_small hk]
      exact (framesIn_append _ t (by omega) hen).symm
    | large =>
      obtain ⟨-, hm, -, -, hleaf⟩ := kind_large hk
      have ha := hok.aligned hcut hen hk
      have hin := (hcut s.page _ hok.from_first hen hleaf).2
      rw [show pages ⟨2, pteAt t 2 s.page⟩ = 2 ^ 9 from rfl] at hin
      rw [base_next hok hcut hen (by omega), base_of_ne (by rw [hk]; decide), hpage,
        stride, hk, frees_large hk ha]
      exact (framesIn_append _ t (by omega) (by omega)).symm
    | absent =>
      obtain ⟨-, -, hm, -, hleaf⟩ := kind_absent hk
      rw [base_next hok hcut hen hm, base_of_ne (by rw [hk]; decide), hpage, stride, frees, hk]
      refine (framesIn_skip (le_add_right _ _) fun q h1 h2 _ hmap => ?_).symm
      obtain rfl : q = s.page := by
        rw [Kind.stride] at h2
        omega
      exact hmap hleaf
    | pass =>
      have hl : s.Leaps t := .inr hk
      have hbehind : s.behind t = s.page := if_neg (by rw [hk]; decide)
      rw [leap_stride hl] at hpage
      rw [base_of_ne (s := s) (by rw [hk]; decide), frees, hk]
      refine (framesIn_skip ?_ fun q h1 h2 h3 => ?_).symm
      · unfold base
        split <;> omega
      · exact (hpass.1 hl).skip hl (by rw [hbehind]; exact h1) h2 h3
    | giant =>
      have hl : s.Leaps t := .inl hk
      have hbehind : s.behind t = s.page / 2 ^ 18 * 2 ^ 18 + 2 ^ 18 := by
        rw [behind, if_pos hk, succ_mul]
      have hbase : s.base t en = s.page / 2 ^ 18 * 2 ^ 18 := if_pos ⟨hen, hk⟩
      have hnext : s.page / 2 ^ 18 * 2 ^ 18 + 2 ^ 18 ≤ (s.next t).base t en := by
        rw [leap_stride hl] at hpage
        unfold base
        split <;> omega
      have hstart : s.page / 2 ^ 18 * 2 ^ 18 ≤ s.page / 2 ^ 18 * 2 ^ 18 + 2 ^ 18 :=
        le_add_right _ _
      have hskip : ∀ q, s.behind t ≤ q → q < (s.next t).base t en → q < en → ¬ Maps t q :=
        fun q => (hpass.1 hl).skip hl
      rw [hbehind] at hskip
      rw [hbase]
      obtain ⟨hmask, hg⟩ := kind_giant hk
      cases h1 : present (pteAt t 1 s.page) with
      | true =>
        have h0 : present (pteAt t 0 s.page) = true := by
          cases hs : s.stale with
          | true => exact hread.1 hs
          | false =>
            rw [mask_fresh hs] at hmask
            exact (ptesPresent_three.1 hmask).1
        have hin := (hcut s.page _ hok.from_first hen (leaf_giant h0 h1 hg)).2
        rw [frees_giant hk h0 h1, framesIn_append _ t hstart hin, framesIn_skip hnext hskip]
      | false =>
        rw [frees_not_present hk h1]
        refine (framesIn_skip (le_trans hstart hnext) fun q hq1 hq2 hq3 => ?_).symm
        by_cases hsame : q / 2 ^ 18 = s.page / 2 ^ 18
        · intro hm
          have := hm.upper.2
          rw [pteAt_same_dir t hsame (by omega), h1] at this
          cases this
        · exact hskip q (next_giga hq1 hsame) hq2 hq3

end release

end Dgos.L2.PageTable
