import Dgos.L1Data.Vector

/-!
# The loops of `ext::vector`

What the cells of the storage hold after each loop of the vector and of the `uninitialized_`
algorithms, and which cells it did not touch.
-/
namespace Dgos.L1.Vector

open Storage List Holds

variable {T : Type} {e : Elem T} {xs r : List T} {b : Storage T} {count first i n : Nat} {x : T}

/-- Constructing from a range: every element is read while only those before it were written. -/
theorem constructFrom_ok (get : Storage T → Nat → Except Err T) (hsize : first + xs.length ≤ b.size)
    (hget : ∀ k x b', xs[k]? = some x → b.Touched first (first + k) b' → get b' (first + k) = .ok x)
    : ∃ b', constructFrom get xs.length first b = .ok b' ∧ b'.Holds first xs ∧
      b.Touched first (first + xs.length) b' := by
  induction xs generalizing first b with
  | nil => exact ⟨b, rfl, nil b first, Touched.refl _ _ _⟩
  | cons x xs ih =>
    simp only [length_cons] at hsize
    have hx : get b first = .ok x := hget 0 x b rfl (Touched.refl _ _ _)
    have hset := touched_set b first (.live x)
    obtain ⟨b', hok, hb', ht⟩ := ih
      (show first + 1 + xs.length ≤ (b.set first (.live x)).size by simpa using by omega) (by
        intro k y b1 hk ht
        rw [show first + 1 + k = first + (k + 1) by omega] at ht ⊢
        exact hget (k + 1) y b1 (by simpa using hk)
          ((hset.mono le_rfl (by omega)).trans (ht.mono (by omega) le_rfl)))
    refine ⟨b', ?_, ⟨?_, hb'⟩, ?_⟩
    · simp [constructFrom, ok_bind hx, ok_bind (construct_ok (show first < b.size by omega) x), hok]
    · rw [ht.cell first (by omega), cell_set_self]
    · rw [length_cons]
      exact (hset.mono le_rfl (by omega)).trans (ht.mono (by omega) (by omega))

theorem uninitializedFill_ok {value : Storage T → Except Err T} (hsize : first + count ≤ b.size)
    (hvalue : ∀ b', b.Touched first (first + count) b' → value b' = .ok x) :
    ∃ b', uninitializedFill value count first b = .ok b' ∧
      b'.Holds first (List.replicate count x) ∧ b.Touched first (first + count) b' := by
  have hlen : first + (replicate count x).length ≤ b.size := by simpa using hsize
  have h := constructFrom_ok (fun b _ => value b) hlen (by
      intro k y b' hk ht
      obtain ⟨hlt, rfl⟩ := List.getElem?_eq_some_iff.1 hk
      rw [List.getElem_replicate]
      rw [length_replicate] at hlt
      exact hvalue b' (ht.mono le_rfl (by omega)))
  rwa [length_replicate] at h

theorem outside_eq {k : Nat} (h : xs[k]? = some x) : outside xs k = .ok x := by
  simp [outside, h]

theorem uninitializedCopy_ok {out : Nat} (hsize : out + xs.length ≤ b.size) :
    ∃ b', uninitializedCopy xs out b = .ok b' ∧ b'.Holds out xs ∧
      b.Touched out (out + xs.length) b' := by
  refine constructFrom_ok _ hsize fun k x b' hk _ => ?_
  rw [show out + k - out = k by omega]
  exact outside_eq hk

theorem uninitializedMove_ok {l : List T} {src out : Storage T} (h : src.Holds i l)
    (hsrc : i + l.length ≤ src.size) (hout : i + l.length ≤ out.size) :
    ∃ src' out', uninitializedMove l.length i (src, out) = .ok (src', out') ∧ out'.Holds i l ∧
      out.Touched i (i + l.length) out' ∧ src.Touched i (i + l.length) src' ∧
      src'.Objects i (i + l.length) := by
  induction l generalizing i src out with
  | nil => exact ⟨src, out, rfl, nil _ _, .refl _ _ _, .refl _ _ _, fun k hk hk' => by
      simp only [length_nil] at hk'; omega⟩
  | cons x l ih =>
    simp only [length_cons] at hsrc hout ⊢
    have hs := touched_set src i .moved
    have ho := touched_set out i (.live x)
    obtain ⟨src', out', hok, hout', hto, hts, hobj⟩ := ih (h.2.touched hs (.inr le_rfl))
      (by simpa using by omega)
      (show i + 1 + l.length ≤ (out.set i (.live x)).size by simpa using by omega)
    refine ⟨src', out', ?_, ⟨?_, hout'⟩, ?_, ?_, ?_⟩
    · simp [uninitializedMove, ok_bind (take_live (show i < src.size by omega) h.1),
        ok_bind (construct_ok (show i < out.size by omega) x), hok]
    · rw [hto.cell i (by omega), cell_set_self]
    · exact (ho.mono le_rfl (by omega)).trans (hto.mono (by omega) (by omega))
    · exact (hs.mono le_rfl (by omega)).trans (hts.mono (by omega) (by omega))
    · intro k hk hk'
      by_cases hki : k = i
      · rw [hki, hts.cell i (by omega), cell_set_self]
        exact nofun
      · exact hobj k (by omega) (by omega)

theorem destructUp_ok (hobj : b.Objects i (i + n))
    (hsize : i + n ≤ b.size) : ∃ b', destructUp e n i b = .ok b' := by
  induction n generalizing i b with
  | zero => exact ⟨b, rfl⟩
  | succ n ih =>
    obtain ⟨b1, hok, ht, -⟩ := destruct_ok
      (hobj.destructible hsize (le_refl i) (by omega) e.trivial)
    obtain ⟨b', hok'⟩ := ih ((hobj.mono (Nat.le_succ i) (by omega)).touched ht (.inr le_rfl))
      (by rw [ht.size]; omega)
    exact ⟨b', by simp [destructUp, ok_bind hok, hok']⟩

theorem destructDown_ok (hobj : b.Objects count n) (hsize : n ≤ b.size) :
    ∃ b', destructDown e count n b = .ok b' ∧ b.Touched count n b' := by
  induction n generalizing b with
  | zero => exact ⟨b, rfl, .refl _ _ _⟩
  | succ n ih =>
    by_cases hlt : count < n + 1
    · obtain ⟨b1, hok, ht, -⟩ := destruct_ok
        (hobj.destructible hsize (show count ≤ n by omega) (by omega) e.trivial)
      obtain ⟨b', hok', ht'⟩ := ih ((hobj.mono le_rfl (by omega)).touched ht (.inl le_rfl))
        (by rw [ht.size]; omega)
      refine ⟨b', by simp only [destructDown, if_pos hlt, ok_bind hok, hok'], ?_⟩
      exact (ht.mono (by omega) le_rfl).trans (ht'.mono le_rfl (by omega))
    · exact ⟨b, by simp only [destructDown, if_neg hlt], .refl _ _ _⟩

/-- Opening a gap moves the tail up by `count`. With `count = 0` every element is constructed over
itself and then destroyed, which only a trivial destructor survives. -/
theorem openGap_ok {pos : Nat} (h : b.Holds pos r)
    (hsize : pos + r.length + count ≤ b.size) (hcount : 0 < count ∨ e.trivial = true) :
    ∃ b', openGap e count pos (pos + r.length) b = .ok b' ∧ b'.Holds (pos + count) r ∧
      b.Touched pos (pos + r.length + count) b' := by
  induction r using reverseRecOn generalizing b with
  | nil =>
    refine ⟨b, ?_, nil _ _, .refl _ _ _⟩
    cases pos with
    | zero => rfl
    | succ pos => exact if_neg (lt_irrefl _)
  | append_singleton r x ih =>
    simp only [length_append, length_singleton] at hsize ⊢
    obtain ⟨hr, hx, -⟩ := holds_append.1 h
    -- the cell of the last element and the cell it goes to
    have hi : pos + r.length < b.size := by omega
    have hj : pos + r.length + 1 + count - 1 = pos + r.length + count := by omega
    have hs1 := touched_set b (pos + r.length) .moved
    have hs2 := touched_set (b.set (pos + r.length) .moved) (pos + r.length + count) (.live x)
    have hobj : ((b.set (pos + r.length) .moved).set (pos + r.length + count) (.live x)).Objects
        (pos + r.length) (pos + r.length + 1) := by
      refine Objects.set ?_ _ nofun
      intro k hk hk'
      rw [show k = pos + r.length by omega, cell_set_self]
      exact nofun
    obtain ⟨b3, hok3, ht3, htr⟩ := destruct_ok
      (hobj.destructible hi le_rfl (Nat.lt_succ_self _) e.trivial)
    have hlive : b3.cell (pos + r.length + count) = .live x := by
      obtain hc | hc := hcount
      · rw [ht3.cell _ (by omega), cell_set_self]
      · rw [htr hc, cell_set_self]
    have hr3 : b3.Holds pos r :=
      ((hr.touched hs1 (.inl le_rfl)).touched hs2 (.inl (by omega))).touched ht3 (.inl le_rfl)
    obtain ⟨b', hok, hb', ht'⟩ := ih hr3 (by rw [ht3.size]; simpa using by omega)
    refine ⟨b', ?_, holds_append.2 ⟨hb', ?_, trivial⟩, ?_⟩
    · rw [← add_assoc, openGap, if_pos (by omega)]
      simp [ok_bind (take_live hi hx), hj,
        ok_bind (construct_ok (b := b.set (pos + r.length) .moved)
          (show pos + r.length + count < _ by simpa using by omega) x), ok_bind hok3, hok]
    · rw [show pos + count + r.length = pos + r.length + count by omega, ht'.cell _ (by omega),
        hlive]
    · refine (((hs1.mono ?_ ?_).trans (hs2.mono ?_ ?_)).trans (ht3.mono ?_ ?_)).trans
        (ht'.mono ?_ ?_) <;> omega

/-- Closing a gap moves the tail down by `count`, and what it leaves behind are objects. -/
theorem closeGap_ok {p : Nat} (h : b.Holds (p + count) r) (hobj : b.Objects p (p + count))
    (hsize : p + count + r.length ≤ b.size) (hcount : 0 < count ∨ e.trivial = true) :
    ∃ b', closeGap e count r.length p b = .ok b' ∧ b'.Holds p r ∧
      b.Touched p (p + count + r.length) b' ∧
      b'.Objects (p + r.length) (p + count + r.length) := by
  induction r generalizing p b with
  | nil => exact ⟨b, rfl, nil _ _, .refl _ _ _, hobj⟩
  | cons x r ih =>
    simp only [length_cons] at hsize ⊢
    have hdes : b.Destructible e.trivial p := by
      obtain hc | hc := hcount
      · exact hobj.destructible (by omega) le_rfl (by omega) _
      · exact .inl hc
    obtain ⟨b1, hok1, ht1, htr⟩ := destruct_ok hdes
    have hx : b1.cell (p + count) = .live x := by
      obtain hc | hc := hcount
      · rw [ht1.cell _ (by omega), h.1]
      · rw [htr hc, h.1]
    have hs1 := touched_set b1 (p + count) .moved
    have hs2 := touched_set (b1.set (p + count) .moved) p (.live x)
    have hr : ((b1.set (p + count) .moved).set p (.live x)).Holds (p + 1 + count) r := by
      rw [show p + 1 + count = p + count + 1 by omega]
      exact ((h.2.touched ht1 (.inr (by omega))).touched hs1 (.inr (by omega))).touched hs2
        (.inr (by omega))
    have hobj' : ((b1.set (p + count) .moved).set p (.live x)).Objects (p + 1) (p + 1 + count) := by
      intro k hk hk'
      rw [hs2.cell k (by omega)]
      by_cases hkc : k = p + count
      · rw [hkc, cell_set_self]
        exact nofun
      · rw [hs1.cell k (by omega), ht1.cell k (by omega)]
        exact hobj k (by omega) (by omega)
    obtain ⟨b', hok, hb', ht', hobj''⟩ := ih hr hobj' (by simp only [size_set, ht1.size]; omega)
    refine ⟨b', ?_, ⟨?_, hb'⟩, ?_, ?_⟩
    · simp [closeGap, ok_bind hok1,
        ok_bind (take_live (show p + count < b1.size by rw [ht1.size]; omega) hx),
        ok_bind (construct_ok (b := b1.set (p + count) .moved)
          (show p < _ by simp only [size_set, ht1.size]; omega) x), hok]
    · rw [ht'.cell p (by omega), cell_set_self]
    · refine (((ht1.mono ?_ ?_).trans (hs1.mono ?_ ?_)).trans (hs2.mono ?_ ?_)).trans
        (ht'.mono ?_ ?_) <;> omega
    · exact hobj''.mono (by omega) (by omega)

end Dgos.L1.Vector
