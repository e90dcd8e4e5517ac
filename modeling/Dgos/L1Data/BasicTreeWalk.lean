import Dgos.L1Data.BasicTreeRetrace

/-!
# Walks and searches

What the loops that walk a tree answer, in terms of its addresses in order: the neighbours of a
node, the node with a key, the place for a new key.

Results:
* `treeNext_spec`, `treePrev_spec`: the next and the previous address, or 0.
* `treeFind_spec`: the node with the key, or 0 if no node has it.
* `insPlace_spec`: the node with the key, or the parent of the hole where the key belongs.
-/
namespace Dgos.L1.BasicTree

open List Shape Hole

variable {α : Type} {s : St α} {m : Links} {c : Hole} {l r t : Shape} {p h par fuel : Nat}

/-! ## Neighbours -/

/-- The leftmost node of a subtree, and the subtree around it. -/
theorem leftmost_spec (hrep : Rep m par t) (ht : t ≠ .nil) (hfuel : t.addrs.length ≤ fuel) :
    ∃ (k : Hole) (q : Nat) (r : Shape), leftmost fuel m t.root = .ok q ∧
      t = k.plug (.node .nil q r) ∧ k.before = [] := by
  induction t generalizing par fuel with
  | nil => exact absurd rfl ht
  | node l p r ihl ihr =>
    obtain ⟨-, -, hl, -, hrl, -⟩ := hrep
    rw [addrs_node, length_append, length_cons] at hfuel
    obtain _ | fuel := fuel
    · omega
    rw [root_node, leftmost, hl]
    by_cases hl0 : l = .nil
    · subst hl0
      exact ⟨.top, p, r, if_pos rfl, rfl, rfl⟩
    have hlen : l.addrs.length ≤ fuel := by omega
    obtain ⟨k, q, r', hq, hk, hbefore⟩ := ihl hrl hl0 hlen
    rw [if_neg fun e => hl0 (hrl.root_eq_zero.1 e)]
    refine ⟨k.append (.left p r .top), q, r', hq, ?_, ?_⟩
    · rw [plug_append, ← hk]; rfl
    · rw [before_append, hbefore]; rfl

theorem rightmost_eq_mirror (fuel : Nat) (m : Links) (p : Nat) :
    rightmost fuel m p = leftmost fuel m.mirror p := by
  induction fuel generalizing p with
  | zero => rfl
  | succ fuel ih => rw [rightmost, ih]; rfl

/-- The walk up from a right child ends at the first address behind the hole. -/
theorem upFromRight_spec (hc : HoleRep m c h) (h0 : h ≠ 0) (hmem : ¬ Mem h c) (hnd : c.NodupAround)
    (hfuel : c.depth ≤ fuel) : upFromRight fuel m h c.par = .ok (c.after.head?.getD 0) := by
  induction c generalizing h fuel with
  | top => unfold upFromRight; exact if_neg fun hp => hp.1 rfl
  | left p r up ih =>
    obtain ⟨-, -, -, hr, -, -⟩ := hc
    have hne : h ≠ m.right p := by
      rw [hr]
      intro e
      by_cases hr0 : r = .nil
      · rw [hr0] at e; exact h0 e
      · exact hmem (by simp [e ▸ root_mem hr0])
    unfold upFromRight
    exact if_neg fun hp => hne hp.2
  | right l p up ih =>
    obtain ⟨hp0, hpp, -, hr, -, hup⟩ := hc
    obtain ⟨-, hpu, hndu⟩ := hnd.right
    obtain ⟨fuel, rfl⟩ : ∃ f, fuel = f + 1 := ⟨fuel - 1, by simp only [depth] at hfuel; omega⟩
    rw [upFromRight, par, if_pos ⟨hp0, hr.symm⟩, hpp]
    exact ih hup hp0 hpu hndu (Nat.le_of_succ_le_succ hfuel)

theorem upFromLeft_eq_mirror (fuel : Nat) (m : Links) (curr p : Nat) :
    upFromLeft fuel m curr p = upFromRight fuel m.mirror curr p := by
  induction fuel generalizing curr p with
  | zero => rfl
  | succ fuel ih => rw [upFromLeft, ih]; rfl

theorem depth_le_length (c : Hole) (t : Shape) : c.depth ≤ (c.plug t).addrs.length := by
  have := c.depth_le
  rw [addrs_plug, length_append, length_append]
  omega

theorem IsTree.flip (ht : IsTree s 0 t) : IsTree s.flip 0 t.mirror :=
  ⟨rep_mirror.2 ht.rep, by rw [addrs_mirror]; exact nodup_reverse.2 ht.nodup,
    by rw [root_mirror]; exact ht.root, ht.bal.mirror⟩

theorem treePrev_eq_flip (hp : p ≠ 0) : treePrev s p = treeNext s.flip p := by
  rw [treePrev, treeNext, if_neg hp, if_neg hp, rightmost_eq_mirror, upFromLeft_eq_mirror]
  rfl

section

variable (ht : IsTree s 0 (c.plug (.node l p r)))
  (hsize : s.currentSize = (c.plug (.node l p r)).addrs.length)
include ht hsize

theorem treeNext_spec : treeNext s p = .ok ((r.addrs ++ c.after).head?.getD 0) := by
  obtain ⟨⟨hp0, hpp, hpl, hpr, hl, hr⟩, hc⟩ := rep_plug.1 ht.rep
  obtain ⟨-, hndc, hdisj⟩ := nodup_plug.1 ht.nodup
  rw [treeNext, if_neg hp0, hpr, hpp]
  by_cases hr0 : r = .nil
  · subst hr0
    refine upFromRight_spec hc hp0 (hdisj p (by simp)) hndc ?_
    have := depth_le_length c (.node l p .nil)
    rw [St.steps]
    omega
  · rw [if_pos fun e => hr0 (hr.root_eq_zero.1 e)]
    have hlen : r.addrs.length ≤ s.steps := by
      rw [St.steps, hsize, addrs_plug]
      simp only [addrs_node, length_append, length_cons]
      omega
    obtain ⟨k, q, r', hq, rfl, hbefore⟩ := leftmost_spec hr hr0 hlen
    rw [hq, addrs_plug, hbefore]
    rfl

theorem treePrev_spec : treePrev s p = .ok ((c.before ++ l.addrs).getLast?.getD 0) := by
  have hp0 : p ≠ 0 := (rep_plug.1 ht.rep).1.1
  have ht' := ht.flip
  rw [← plug_mirror] at ht'
  rw [treePrev_eq_flip hp0, treeNext_spec ht' (by
    rw [← mirror_node, plug_mirror, addrs_mirror, length_reverse]; exact hsize)]
  rw [addrs_mirror, after_mirror, ← reverse_append, head?_reverse]

end

/-! ## Search -/

section keys

variable {κ : Type} [LinearOrder κ] {key : α → κ} {k : κ}

theorem diff_eq (a b : κ) : diff a b = if a < b then -1 else if b < a then 1 else 0 := by
  unfold diff
  split
  · rename_i h; simp [h.asymm]
  · split <;> simp

/-- The keys of the nodes in order are strictly increasing. -/
def Ordered (key : α → κ) (s : St α) (l : List Nat) : Prop :=
  l.Pairwise fun p q => key (s.item p) < key (s.item q)

theorem ordered_node : Ordered key s (Shape.node l p r).addrs ↔
    Ordered key s l.addrs ∧ Ordered key s r.addrs ∧
      (∀ q ∈ l.addrs, key (s.item q) < key (s.item p)) ∧
      (∀ q ∈ r.addrs, key (s.item p) < key (s.item q)) := by
  simp only [Ordered, addrs_node, pairwise_append, pairwise_cons, mem_cons]
  constructor
  · rintro ⟨h1, ⟨h2, h3⟩, h4⟩
    exact ⟨h1, h3, fun q hq => h4 q hq p (.inl rfl), h2⟩
  · rintro ⟨h1, h2, h3, h4⟩
    refine ⟨h1, ⟨h4, h2⟩, fun q hq q' hq' => ?_⟩
    rcases hq' with rfl | hq'
    · exact h3 q hq
    · exact (h3 q hq).trans (h4 q' hq')

theorem findLoop_spec (hrep : Rep s.toLinks par t) (ho : Ordered key s t.addrs)
    (hfuel : t.addrs.length ≤ fuel) : ∃ q, findLoop key s k fuel t.root = .ok q ∧
      ((q = 0 ∧ ∀ p ∈ t.addrs, key (s.item p) ≠ k) ∨ (q ∈ t.addrs ∧ key (s.item q) = k)) := by
  induction t generalizing par fuel with
  | nil =>
    unfold findLoop
    exact ⟨0, if_pos rfl, .inl ⟨rfl, by simp⟩⟩
  | node l p r ihl ihr =>
    obtain ⟨hp0, -, hpl, hpr, hl, hr⟩ := hrep
    obtain ⟨hol, hor, hlt, hgt⟩ := ordered_node.1 ho
    rw [addrs_node, length_append, length_cons] at hfuel
    obtain _ | fuel := fuel
    · omega
    have hlen : l.addrs.length ≤ fuel ∧ r.addrs.length ≤ fuel := by omega
    rw [root_node, findLoop, if_neg hp0]
    simp only [diff_eq, hpl, hpr]
    rcases lt_trichotomy k (key (s.item p)) with hk | hk | hk
    · obtain ⟨q, hq, h⟩ := ihl hl hol hlen.1
      refine ⟨q, by simpa [hk] using hq, h.imp (fun ⟨h0, hn⟩ => ⟨h0, fun p' hp' e => ?_⟩)
        fun ⟨hm, he⟩ => ⟨by simp [hm], he⟩⟩
      rcases mem_node.1 hp' with hm | rfl | hm
      · exact hn p' hm e
      · exact hk.ne e.symm
      · exact absurd (hgt p' hm) (e ▸ hk.asymm)
    · exact ⟨p, by simp [hk]; rfl, .inr ⟨by simp, hk.symm⟩⟩
    · obtain ⟨q, hq, h⟩ := ihr hr hor hlen.2
      refine ⟨q, by simpa [hk, hk.asymm] using hq, h.imp (fun ⟨h0, hn⟩ => ⟨h0, fun p' hp' e => ?_⟩)
        fun ⟨hm, he⟩ => ⟨by simp [hm], he⟩⟩
      rcases mem_node.1 hp' with hm | rfl | hm
      · exact absurd (hlt p' hm) (e ▸ hk.asymm)
      · exact hk.ne e
      · exact hn p' hm e

/-- A search takes one step for each level. -/
theorem findLoop_height (hrep : Rep s.toLinks par t) {fuel' : Nat} (hf : t.height 0 ≤ fuel)
    (hf' : t.height 0 ≤ fuel') : findLoop key s k fuel t.root = findLoop key s k fuel' t.root := by
  induction t generalizing par fuel fuel' with
  | nil => unfold findLoop; rfl
  | node l p r ihl ihr =>
    obtain ⟨hp0, -, hpl, hpr, hl, hr⟩ := hrep
    rw [height_node hp0] at hf hf'
    obtain _ | fuel := fuel
    · omega
    obtain _ | fuel' := fuel'
    · omega
    simp only [root_node, findLoop, if_neg hp0, hpl, hpr]
    split_ifs
    · rfl
    · exact ihl hl (by omega) (by omega)
    · exact ihr hr (by omega) (by omega)

/-! ## The place for a key -/

/-- The comparison that leads into a hole. -/
def side : Hole → Int
  | .top => -1
  | .left _ _ _ => -1
  | .right _ _ _ => 1

/-- The hole `c` of the tree `t` is where the key belongs. -/
structure Place (key : α → κ) (s : St α) (k : κ) (t : Shape) (c : Hole) : Prop where
  plug : t = c.plug .nil
  before : ∀ p ∈ c.before, key (s.item p) < k
  after : ∀ p ∈ c.after, k < key (s.item p)

theorem Place.left (h : Place key s k l c) (hr : ∀ q ∈ r.addrs, key (s.item p) < key (s.item q))
    (hk : k < key (s.item p)) : Place key s k (.node l p r) (c.append (.left p r .top)) := by
  obtain ⟨rfl, hb, ha⟩ := h
  refine ⟨by rw [plug_append]; rfl, ?_, ?_⟩
  · rw [before_append]; exact hb
  · simp only [after_append, Hole.after, append_nil, mem_append, mem_cons]
    rintro q (hq | rfl | hq)
    · exact ha q hq
    · exact hk
    · exact hk.trans (hr q hq)

theorem Place.right (h : Place key s k r c) (hl : ∀ q ∈ l.addrs, key (s.item q) < key (s.item p))
    (hk : key (s.item p) < k) : Place key s k (.node l p r) (c.append (.right l p .top)) := by
  obtain ⟨rfl, hb, ha⟩ := h
  refine ⟨by rw [plug_append]; rfl, ?_, ?_⟩
  · simp only [before_append, Hole.before, nil_append, mem_append, mem_singleton]
    rintro q ((hq | rfl) | hq)
    · exact (hl q hq).trans hk
    · exact hk
    · exact hb q hq
  · rw [after_append]; simpa [Hole.after] using ha

theorem side_append {d : Hole} (hc : c ≠ .top) :
    c.append d ≠ .top ∧ (c.append d).par = c.par ∧ side (c.append d) = side c := by
  cases c with
  | top => exact absurd rfl hc
  | left p r up => exact ⟨by simp [append], rfl, rfl⟩
  | right l p up => exact ⟨by simp [append], rfl, rfl⟩

theorem place_nil : Place key s k .nil .top := ⟨rfl, by simp [before], by simp [Hole.after]⟩

theorem insLoop_spec (hrep : Rep s.toLinks par t) (ht : t ≠ .nil) (ho : Ordered key s t.addrs)
    (hfuel : t.addrs.length ≤ fuel) :
    (∃ q ∈ t.addrs, key (s.item q) = k ∧ insLoop key s k fuel t.root = .ok (q, 0)) ∨
      ∃ c, c ≠ .top ∧ Place key s k t c ∧ insLoop key s k fuel t.root = .ok (c.par, side c) := by
  induction t generalizing par fuel with
  | nil => exact absurd rfl ht
  | node l p r ihl ihr =>
    obtain ⟨hp0, -, hpl, hpr, hl, hr⟩ := hrep
    obtain ⟨hol, hor, hlt, hgt⟩ := ordered_node.1 ho
    rw [addrs_node, length_append, length_cons] at hfuel
    obtain _ | fuel := fuel
    · omega
    have hlen : l.addrs.length ≤ fuel ∧ r.addrs.length ≤ fuel := by omega
    rw [root_node, insLoop]
    simp only [diff_eq, hpl, hpr]
    rcases lt_trichotomy k (key (s.item p)) with hk | hk | hk
    · simp only [if_pos hk]
      by_cases hl0 : l = .nil
      · subst hl0
        exact .inr ⟨.left p r .top, by simp, place_nil.left hgt hk, rfl⟩
      have hroot : l.root ≠ 0 := fun e => hl0 (hl.root_eq_zero.1 e)
      rw [if_pos (show (-1 : Int) ≠ 0 ∧ (if (-1 : Int) < 0 then l.root else r.root) ≠ 0 from
        ⟨by decide, hroot⟩)]
      rcases ihl hl hl0 hol hlen.1 with ⟨q, hm, he, hq⟩ | ⟨c, hc, hp, hq⟩
      · exact .inl ⟨q, by simp [hm], he, hq⟩
      · obtain ⟨h1, h2, h3⟩ := side_append hc
        exact .inr ⟨_, h1, hp.left hgt hk, by rw [h2, h3]; exact hq⟩
    · exact .inl ⟨p, by simp, hk.symm, by simp [hk]; rfl⟩
    · simp only [if_neg hk.asymm, if_pos hk]
      by_cases hr0 : r = .nil
      · subst hr0
        exact .inr ⟨.right l p .top, by simp, place_nil.right hlt hk, rfl⟩
      have hroot : r.root ≠ 0 := fun e => hr0 (hr.root_eq_zero.1 e)
      rw [if_pos (show (1 : Int) ≠ 0 ∧ (if (1 : Int) < 0 then l.root else r.root) ≠ 0 from
        ⟨by decide, hroot⟩)]
      rcases ihr hr hr0 hor hlen.2 with ⟨q, hm, he, hq⟩ | ⟨c, hc, hp, hq⟩
      · exact .inl ⟨q, by simp [hm], he, hq⟩
      · obtain ⟨h1, h2, h3⟩ := side_append hc
        exact .inr ⟨_, h1, hp.right hlt hk, by rw [h2, h3]; exact hq⟩

theorem lowerBoundLoop_eq (fuel p : Nat) :
    lowerBoundLoop key s k fuel p = insLoop key s k fuel p := by
  induction fuel generalizing p with
  | zero => rfl
  | succ fuel ih =>
    simp only [lowerBoundLoop, insLoop, ih]
    generalize (if diff k (key (s.item p)) < 0 then s.left p else s.right p) = next
    by_cases h : diff k (key (s.item p)) = 0 ∨ next = 0
    · rw [if_pos h, if_neg fun h' => h.elim h'.1 h'.2]
    · rw [if_neg h, if_pos (not_or.1 h)]

variable (ht : IsTree s 0 t) (ho : Ordered key s t.addrs) (hsize : s.currentSize = t.addrs.length)
include ht ho hsize

theorem treeFind_spec : ∃ q, treeFind key s k = .ok q ∧
      ((q = 0 ∧ ∀ p ∈ t.addrs, key (s.item p) ≠ k) ∨ (q ∈ t.addrs ∧ key (s.item q) = k)) := by
  rw [treeFind, ht.root]
  exact findLoop_spec ht.rep ho (by rw [St.steps]; omega)

theorem insPlace_spec : (∃ q ∈ t.addrs, key (s.item q) = k ∧ insPlace key s k = .ok (q, 0)) ∨
      ∃ c, Place key s k t c ∧ insPlace key s k = .ok (c.par, side c) := by
  rw [insPlace, ht.root]
  by_cases ht0 : t = .nil
  · subst ht0
    exact .inr ⟨.top, place_nil, if_pos rfl⟩
  · rw [if_neg fun e => ht0 (ht.rep.root_eq_zero.1 e)]
    refine (insLoop_spec ht.rep ht0 ho ?_).imp id fun ⟨c, _, hp, hq⟩ => ⟨c, hp, hq⟩
    rw [St.steps]
    omega

/-- `lower_bound` answers the first node that is not before the key. -/
theorem lowerBound_spec : (∃ q ∈ t.addrs, key (s.item q) = k ∧ lowerBound key s k = .ok q) ∨
      ∃ c, Place key s k t c ∧ lowerBound key s k = .ok (c.after.head?.getD 0) := by
  rw [lowerBound, ht.root]
  by_cases ht0 : t = .nil
  · subst ht0
    exact .inr ⟨.top, place_nil, if_pos rfl⟩
  have hfuel : t.addrs.length ≤ s.steps := by rw [St.steps]; omega
  rw [if_neg fun e => ht0 (ht.rep.root_eq_zero.1 e), lowerBoundLoop_eq]
  rcases insLoop_spec ht.rep ht0 ho hfuel with ⟨q, hm, he, hq⟩ | ⟨c, hc, hp, hq⟩
  · exact .inl ⟨q, hm, he, by rw [hq]; rfl⟩
  refine .inr ⟨c, hp, ?_⟩
  rw [hq]
  obtain ⟨rfl, -, -⟩ := hp
  cases c with
  | top => exact absurd rfl hc
  | left p r up => rfl
  | right l p up => exact treeNext_spec ht hsize

end keys

end Dgos.L1.BasicTree
