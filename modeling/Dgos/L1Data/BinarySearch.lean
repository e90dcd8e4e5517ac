import Dgos.Core.Outcome

/-!
# Binary search (kernel/lib/bsearch.cc)

`binary_search` never looks at the array itself: it calls the comparator with the place of an
item. Here the comparator takes the item's index and may fail; the failure ends the search.

Results, all for `unique` searches:
* `binarySearch_hit`: the matching item is found when the items in front of it compare
  positive and those behind it negative.
* `binarySearch_found`: an index that is returned compared equal, whatever the order.
* `binarySearch_total`: the search returns when no comparison fails.
-/
namespace Dgos.L1.BinarySearch

open Except

variable {ε : Type} (cmp : Nat → Except ε Int) (unique : Bool)

/-- The loop: the index of an early return, or `st` and the last `diff` at its end.
mirrors bsearch.cc:17-36 -/
def searchLoop : Nat → Nat → Nat → Int → Except ε (Nat ⊕ Nat × Int)
  | 0, st, _, diff => .ok (.inr (st, diff))
  | fuel + 1, st, en, diff =>
    if st < en then do
      let mid := st + (en - st) / 2
      let diff ← cmp mid
      if diff = 0 ∧ unique then .ok (.inl mid)
      else if diff ≤ 0 then searchLoop fuel st mid diff
      else searchLoop fuel (mid + 1) en diff
    else .ok (.inr (st, diff))

/-- The comparison behind the loop.
mirrors bsearch.cc:38-39 -/
def finalDiff (count st : Nat) (diff : Int) : Except ε Int := if st < count then cmp st else .ok diff

/-- The index of the matching item, or the ones complement of the insertion point.
mirrors bsearch.cc:8-42 -/
def binarySearch (count : Nat) : Except ε Int := do
  match ← searchLoop cmp unique count 0 count (-1) with
  | .inl mid => .ok mid
  | .inr (st, diff) => do
    let diff ← finalDiff cmp count st diff
    .ok (if diff ≠ 0 then -st - 1 else st)

variable {cmp} {count en fuel st t : Nat}

/-- An early return compared equal, the end of the loop is reached with `diff ≠ 0` only. -/
theorem searchLoop_sound {diff : Int} {r : Nat ⊕ Nat × Int} (hdiff : diff ≠ 0)
    (h : searchLoop cmp true fuel st en diff = .ok r) :
    (∃ i < en, r = .inl i ∧ cmp i = .ok 0) ∨ ∃ st' d, r = .inr (st', d) ∧ d ≠ 0 := by
  induction fuel generalizing st en diff with
  | zero => exact .inr ⟨st, diff, (ok.inj h).symm, hdiff⟩
  | succ fuel ih =>
    rw [searchLoop] at h
    split at h
    · next hlt =>
      obtain ⟨d, hd, h⟩ := bind_eq_ok h
      split at h
      · next hzero =>
        refine .inl ⟨st + (en - st) / 2, by omega, (ok.inj h).symm, ?_⟩
        rw [hd, hzero.1]
      · next hzero =>
        have hne : d ≠ 0 := fun h0 => hzero ⟨h0, rfl⟩
        split at h
        · rcases ih hne h with ⟨i, hi, hr, heq⟩ | hend
          · exact .inl ⟨i, by omega, hr, heq⟩
          · exact .inr hend
        · exact ih hne h
    · exact .inr ⟨st, diff, (ok.inj h).symm, hdiff⟩

theorem binarySearch_found {r : Int} (h : binarySearch cmp true count = .ok r) (hr : 0 ≤ r) :
    r.toNat < count ∧ cmp r.toNat = .ok 0 := by
  obtain ⟨x, hloop, h⟩ := bind_eq_ok h
  rcases searchLoop_sound (by decide) hloop with ⟨i, hi, hx, heq⟩ | ⟨st, d, hx, hd⟩
  · subst hx
    obtain rfl : (i : Int) = r := ok.inj h
    exact ⟨hi, heq⟩
  · subst hx
    obtain ⟨d', hd', h⟩ := bind_eq_ok h
    obtain hres := ok.inj h
    split at hres
    · omega
    · next hzero =>
      have hzero : d' = 0 := not_not.mp hzero
      rw [finalDiff] at hd'
      split at hd'
      · next hlt =>
        subst hres hzero
        exact ⟨hlt, hd'⟩
      · exact absurd ((ok.inj hd').trans hzero) hd

theorem searchLoop_total (htotal : ∀ i < count, ∃ c, cmp i = .ok c) (fuel st : Nat)
    (hen : en ≤ count) (diff : Int) : ∃ r, searchLoop cmp unique fuel st en diff = .ok r := by
  induction fuel generalizing st en diff with
  | zero => exact ⟨_, rfl⟩
  | succ fuel ih =>
    rw [searchLoop]
    split
    · obtain ⟨c, hc⟩ := htotal (st + (en - st) / 2) (by omega)
      rw [ok_bind hc]
      split
      · exact ⟨_, rfl⟩
      · split
        · exact ih _ (by omega) c
        · exact ih _ hen c
    · exact ⟨_, rfl⟩

theorem binarySearch_total (htotal : ∀ i < count, ∃ c, cmp i = .ok c) :
    ∃ r, binarySearch cmp unique count = .ok r := by
  obtain ⟨x, hx⟩ := searchLoop_total unique htotal count 0 (Nat.le_refl count) (-1)
  rw [binarySearch, ok_bind hx]
  rcases x with mid | ⟨st, diff⟩
  · exact ⟨_, rfl⟩
  · by_cases hlt : st < count
    · obtain ⟨c, hc⟩ := htotal st hlt
      exact ⟨_, ok_bind ((if_pos hlt).trans hc) _⟩
    · exact ⟨_, ok_bind (if_neg hlt) _⟩

/-- A search that is always sent to the left gets to the first item. -/
theorem searchLoop_left (h0 : ∀ c, cmp 0 ≠ .ok c) (hleft : ∀ i < count, ∀ c, cmp i = .ok c → c < 0)
    (hpos : 0 < en) (hen : en ≤ count) (hfuel : en ≤ fuel) (diff : Int) (r : Nat ⊕ Nat × Int) :
    searchLoop cmp unique fuel 0 en diff ≠ .ok r := by
  induction fuel generalizing en diff with
  | zero => omega
  | succ fuel ih =>
    intro h
    rw [searchLoop, if_pos hpos] at h
    obtain ⟨d, hd, h⟩ := bind_eq_ok h
    have hneg := hleft _ (by omega) d hd
    rw [if_neg (by omega), if_pos hneg.le] at h
    rcases Nat.eq_zero_or_pos (0 + (en - 0) / 2) with hmid | hmid
    · exact h0 d (hmid ▸ hd)
    · exact ih hmid (by omega) (by omega) d h

variable (hlow : ∀ i < t, ∃ c, cmp i = .ok c ∧ 0 < c) (ht : cmp t = .ok 0)
  (hhigh : ∀ i, t < i → i < count → ∃ c, cmp i = .ok c ∧ c < 0)
include hlow ht hhigh

/-- The interval keeps the place of the matching item. -/
theorem searchLoop_hit (hst : st ≤ t) (hlt : t < en) (hen : en ≤ count) (hfuel : en - st ≤ fuel)
    (diff : Int) : searchLoop cmp true fuel st en diff = .ok (.inl t) := by
  induction fuel generalizing st en diff with
  | zero => omega
  | succ fuel ih =>
    rw [searchLoop, if_pos (by omega)]
    rcases Nat.lt_trichotomy (st + (en - st) / 2) t with hmid | hmid | hmid
    · obtain ⟨c, hc, hpos⟩ := hlow _ hmid
      rw [ok_bind hc, if_neg (by omega), if_neg (by omega)]
      exact ih (by omega) hlt hen (by omega) c
    · rw [hmid, ok_bind ht, if_pos ⟨rfl, rfl⟩]
    · obtain ⟨c, hc, hneg⟩ := hhigh _ hmid (by omega)
      rw [ok_bind hc, if_neg (by omega), if_pos (by omega)]
      exact ih hst hmid (by omega) (by omega) c

theorem binarySearch_hit (htc : t < count) : binarySearch cmp true count = .ok (t : Int) := by
  rw [binarySearch, ok_bind (searchLoop_hit hlow ht hhigh (Nat.zero_le t) htc (Nat.le_refl count)
    (Nat.sub_le count 0) (-1))]

end Dgos.L1.BinarySearch
