import Dgos.L1Data.BasicTreeInsert
import Dgos.L1Data.BasicTreeSwap

/-!
# Removal

A node with at most one child is taken out after the balances above it have been restored as
if it were gone; a node with two children first changes places with its successor. `erase`,
`extract` and `clear` are built on this.

Results:
* `removeNode_spec`: the addresses in order are the old ones without the node.
-/
namespace Dgos.L1.BasicTree

open List Shape Hole OrdSet Function Equiv

variable {α κ : Type} [LinearOrder κ] {key : α → κ} {s s' : St α} {c c' : Hole} {l r t x : Shape}
  {S : OrdSet κ} {h p q : Nat}

/-! ## The balances above a removed node -/

theorem IsTree.pending (ht : IsTree s 0 (c.plug (.node l p r))) :
    Pending s p ((Shape.node l p r).height p + 1) c (.node l p r) := by
  obtain ⟨hndt, -, hdisj⟩ := nodup_plug.1 ht.nodup
  have h0 : ∀ q ∈ (c.plug (.node l p r)).addrs, q ≠ 0 := fun q hq => ht.rep.ne_zero hq
  have hp0 : p ≠ 0 := h0 p (mem_plug.2 (.inl (by simp)))
  have hc0 : ¬ Mem 0 c := fun hm => h0 0 (mem_plug.2 (.inr hm)) rfl
  have hl0 : 0 ∉ l.addrs := fun hm => h0 0 (mem_plug.2 (.inl (by simp [hm]))) rfl
  have hr0 : 0 ∉ r.addrs := fun hm => h0 0 (mem_plug.2 (.inl (by simp [hm]))) rfl
  have hpc : ¬ Mem p c := hdisj p (by simp)
  obtain ⟨-, -, hpl, hpr, -⟩ := nodup_node.1 hndt
  obtain ⟨hb, hc⟩ := (bal_plug hc0).1 ht.bal
  obtain ⟨-, hbl, hbr⟩ := (bal_node hp0).1 hb
  have hheight : (Shape.node l p r).height 0 = (Shape.node l p r).height p + 1 := by
    rw [height_node hp0, height_removed, height_congr hl0 hpl, height_congr hr0 hpr]
  refine ⟨ht.rep, ht.nodup, ht.root, ⟨absurd rfl, ?_, ?_⟩, ?_⟩
  · exact hbl.of_not_mem hl0 hpl
  · exact hbr.of_not_mem hr0 hpr
  · rw [← hheight]; exact hc.of_not_mem hpc hc0

/-- The balance of the removed node itself does not matter. -/
theorem Pending.setRemoved (hs : Pending s p h c (.node l p r)) (b : Int) :
    Pending (setBalance s p b) p h c (.node l p r) := by
  obtain ⟨hl, hr, hc⟩ := setBalance_frame hs.nodup b
  exact ⟨hs.rep, hs.nodup, hs.root, ⟨absurd rfl, hl hs.bal.2.1, hr hs.bal.2.2⟩, hc hs.hole⟩

/-! ## Unlinking -/

/-- The tree without the node: its only child, or nothing, is where it was. -/
theorem IsTree.unlink_bal (ht : IsTree s p (c.plug (.node l p r)))
    (hx : (x = l ∧ r = .nil) ∨ (x = r ∧ l = .nil)) :
    Bal s.balance 0 (c.plug x) ∧ (c.plug x).addrs.Nodup := by
  obtain ⟨hndt, hndc, hdisj⟩ := nodup_plug.1 ht.nodup
  have hpc : ¬ Mem p c := hdisj p (by simp)
  obtain ⟨⟨-, hbl, hbr⟩, hc⟩ := (bal_plug hpc).1 ht.bal
  obtain ⟨hndl, hndr, hpl, hpr, -⟩ := nodup_node.1 hndt
  have hchild : p ∉ x.addrs ∧ x.addrs.Nodup ∧ (∀ q ∈ x.addrs, q ∈ (Shape.node l p r).addrs) ∧
      Bal s.balance p x ∧ x.height p = (Shape.node l p r).height p := by
    rw [height_removed]
    rcases hx with ⟨rfl, rfl⟩ | ⟨rfl, rfl⟩
    · exact ⟨hpl, hndl, fun q hq => by simp [hq], hbl, by simp⟩
    · exact ⟨hpr, hndr, fun q hq => by simp [hq], hbr, by simp⟩
  obtain ⟨hpx, hndx, hmem, hbx, hheight⟩ := hchild
  refine ⟨((bal_plug hpc).2 ⟨hbx, hheight ▸ hc⟩).of_not_mem ?_ ?_,
    nodup_plug.2 ⟨hndx, hndc, fun q hq => hdisj q (hmem q hq)⟩⟩
  · exact fun hm => (mem_plug.1 hm).elim hpx hpc
  · exact fun hm => ht.rep.ne_zero (mem_plug.2 ((mem_plug.1 hm).imp (hmem 0) id)) rfl

theorem assert_bind {β : Type} {q : Prop} [Decidable q] (h : q) (f : Unit → Except Err β) :
    (assert q >>= f) = f () := by
  rw [assert, if_pos h]; rfl

theorem setChild_withParent (m : Links) (f : Nat → Nat) (g x n : Nat) :
    Links.setChild { m with parent := f } g x n = { m.setChild g x n with parent := f } := by
  unfold Links.setChild
  split <;> simp_all

theorem removeWithChild_eq {child : St α → Nat} (hr : retraceDelete s (child s) = .ok s')
    (hpar : s'.parent p = c.par) :
    removeWithChild s p c.par child = .ok (adopt s' c.par p (child s')) := by
  rw [removeWithChild, ok_bind hr, assert_bind hpar.symm, adopt]
  by_cases h : c.par = 0
  · simp only [h, ne_eq, not_true_eq_false, if_false]
    rfl
  · simp only [ne_eq, h, not_false_eq_true, if_true, setChild_withParent, setChild_parent]
    rfl

/-- What a removal leaves: the addresses `l` in order, and the node itself outside. -/
structure Removed (s s' : St α) (l : List Nat) : Prop where
  tree : ∃ t, IsTree s' 0 t ∧ t.addrs = l
  item : s'.item = s.item
  live : s'.live = s.live
  size : s'.currentSize = s.currentSize - 1
  ends : (s'.first = s.first ∧ s'.last = s.last) ∨ (l = [] ∧ s'.first = 0 ∧ s'.last = 0)

/-- The node and its successor `q`, which hangs in the hole `k` of the right subtree, change
places. -/
theorem swapped_shape {k : Hole} {r' : Shape}
    (hnd : (c.plug (.node l p (k.plug (.node .nil q r')))).addrs.Nodup) :
    (c.plug (.node l p (k.plug (.node .nil q r')))).map (swap p q) =
      (k.append (.right l q c)).plug (.node .nil p r') := by
  obtain ⟨hndt, -, hdisj⟩ := nodup_plug.1 hnd
  rw [addrs_node, nodup_append, nodup_cons] at hndt
  obtain ⟨-, ⟨hpk, hndk⟩, hlk⟩ := hndt
  obtain ⟨hndq, -, hdisjk⟩ := nodup_plug.1 hndk
  have hq : q ∈ (k.plug (.node .nil q r')).addrs := mem_plug.2 (.inl (by simp))
  have hfix : ∀ x ≠ p, x ≠ q → swap p q x = x := fun x => swap_apply_of_ne_of_ne
  rw [map_plug, Shape.map, map_plug, Shape.map, Shape.map, swap_apply_left,
    swap_apply_right, map_of_fixed, map_of_fixed, plug_append, plug]
  · intro x hx
    simp only [addrs_node, addrs_nil, nil_append, nodup_cons] at hndq
    exact hfix x (fun e => hpk (e ▸ mem_plug.2 (.inl (by simp [hx])))) fun e => hndq.1 (e ▸ hx)
  · exact fun x hx => hfix x (hlk x hx p mem_cons_self) (hlk x hx q (mem_cons_of_mem _ hq))
  · intro x hx
    exact hfix x (fun e => hpk (e ▸ mem_plug.2 (.inr hx))) fun e => hdisjk q (by simp) (e ▸ hx)
  · intro x hx
    exact hfix x (fun e => hdisj p (by simp) (e ▸ hx)) fun e => hdisj q (by simp [hq]) (e ▸ hx)

section Leaf

variable (ht : IsTree s 0 (c.plug (.node .nil p .nil)))
  (hsize : s.currentSize = (c.plug (.node .nil p .nil)).addrs.length)
include ht hsize

theorem retraceDelete_leaf :
    ∃ s' c', retraceDelete s p = .ok s' ∧ Restored s s' p c c' (.node .nil p .nil) := by
  have hdepth := depth_le_length c (.node .nil p .nil)
  rw [retraceDelete, (Pending.links_at ht.rep ht.nodup).1]
  exact retraceDeleteLoop_spec ht.pending (by simp) ((nodup_plug.1 ht.nodup).2.2 p (by simp))
    (by rw [St.steps]; omega)

theorem removeLeaf_spec : ∃ s', removeLeaf s p c.par = .ok s' ∧
      Removed s { s' with currentSize := s'.currentSize - 1 } (c.before ++ c.after) := by
  obtain ⟨s', c', hr, hsame, ht', hpar, hbefore, hafter⟩ := retraceDelete_leaf ht hsize
  obtain ⟨⟨hp0, hpp, -, -, -, -⟩, hc⟩ := rep_plug.1 ht'.rep
  obtain ⟨hbal, hnd⟩ := ht'.unlink_bal (.inl ⟨rfl, rfl⟩)
  have haddrs : (c'.plug .nil).addrs = c.before ++ c.after := by
    simp [addrs_plug, hbefore, hafter]
  rw [removeLeaf, ok_bind hr]
  by_cases hne : c.par = 0
  · have htop : c' = .top := hc.par_eq_zero.1 (hpar.trans hne)
    subst htop
    have hlen : s'.currentSize = 1 := by
      rw [hsame.size, hsize, addrs_plug, ← hbefore, ← hafter]; rfl
    rw [if_neg fun h => h hne, assert_bind hlen]
    refine ⟨_, rfl, ⟨.nil, ⟨trivial, nodup_nil, rfl, trivial⟩, haddrs⟩, hsame.item, hsame.live,
      congrArg (· - 1) hsame.size, .inr ⟨haddrs.symm, rfl, rfl⟩⟩
  · have hroot : s'.root = (c'.plug .nil).root := by
      rw [ht'.root, root_plug, root_plug]
      cases c' with
      | top => exact absurd hpar.symm hne
      | left p r up => rfl
      | right l p up => rfl
    have htop : c' ≠ .top := fun e => hne (hpar.symm.trans (by rw [e]; rfl))
    have hasserts : c.par = s'.parent p := (hpp.trans hpar).symm
    rw [if_pos hne, assert_bind hasserts]
    refine ⟨_, rfl, ⟨c'.plug .nil, ⟨?_, hnd, hroot, hbal⟩, haddrs⟩, hsame.item, hsame.live,
      congrArg (· - 1) hsame.size, .inl ⟨hsame.first, hsame.last⟩⟩
    rw [← hpar]
    exact rep_plug.2 ⟨trivial, hc.setChild htop (nodup_plug.1 ht'.nodup).2.1 hp0
      ((nodup_plug.1 ht'.nodup).2.2 p (by simp)) 0⟩

end Leaf

section Node

variable (ht : IsTree s 0 (c.plug (.node l p r)))
  (hsize : s.currentSize = (c.plug (.node l p r)).addrs.length)
include ht hsize

/-- The walk above a node that has one child, from the node on. -/
theorem retraceDelete_above :
    ∃ s' c', retraceDeleteLoop s.currentSize (setBalance s p 0) c.par p = .ok s' ∧
      Restored s s' p c c' (.node l p r) := by
  have hdepth := depth_le_length c (.node l p r)
  obtain ⟨s', c', hr, hsame, hres⟩ := retraceDeleteLoop_spec (ht.pending.setRemoved 0) (by simp)
    ((nodup_plug.1 ht.nodup).2.2 p (by simp)) (hsize ▸ hdepth)
  exact ⟨s', c', hr, (setBalance_same ..).trans hsame, hres⟩

section Child

variable (hx0 : x ≠ .nil) (hx : (x = l ∧ r = .nil) ∨ (x = r ∧ l = .nil))
include hx0 hx

theorem retraceDelete_child :
    ∃ s' c', retraceDelete s x.root = .ok s' ∧ Restored s s' p c c' (.node l p r) := by
  obtain ⟨hpp, hpl, -, hl, hr⟩ := Pending.links_at ht.rep ht.nodup
  have hp0 : p ≠ 0 := (rep_plug.1 ht.rep).1.1
  have hbal := (bal_node hp0).1 ((bal_plug ht.pending.zero_not_mem.2).1 ht.bal).1
  have hxh : x.height 0 ≠ 0 := fun e => hx0 (eq_nil_of_height_eq_zero e fun hm =>
    ht.pending.zero_not_mem.1 (by rcases hx with ⟨rfl, -⟩ | ⟨rfl, -⟩ <;> simp [hm]))
  obtain ⟨s', c', hloop, hres⟩ := retraceDelete_above ht hsize
  refine ⟨s', c', ?_, hres⟩
  rw [retraceDelete, St.steps, retraceDeleteLoop]
  rcases hx with ⟨rfl, rfl⟩ | ⟨rfl, rfl⟩
  · have hB : s.balance p = -1 := by rw [height_nil] at hbal; omega
    simp only [(hl hx0).1, if_neg hp0, hpl, if_pos, hB, hpp]
    exact hloop
  · have hB : s.balance p = 1 := by rw [height_nil] at hbal; omega
    simp only [(hr hx0).1, if_neg hp0, hpl, if_neg (hr hx0).2, hB, hpp]
    exact hloop

theorem removeWithChild_spec (child : St α → Nat)
    (hchild : ∀ s' : St α, s'.left p = l.root → s'.right p = r.root → child s' = x.root) :
    ∃ s', removeWithChild s p c.par child = .ok s' ∧ Removed s
      { s' with currentSize := s'.currentSize - 1 }
      (c.before ++ (l.addrs ++ r.addrs) ++ c.after) := by
  obtain ⟨-, -, hpl, hpr, -, -⟩ := (rep_plug.1 ht.rep).1
  obtain ⟨s', c', hret, hsame, ht', hpar, hbefore, hafter⟩ := retraceDelete_child ht hsize hx0 hx
  obtain ⟨⟨hp0, hpp, hpl', hpr', hl, hr⟩, hc⟩ := rep_plug.1 ht'.rep
  obtain ⟨hbal, hnd⟩ := ht'.unlink_bal hx
  have hrx : Rep s'.toLinks p x ∧ x.addrs = l.addrs ++ r.addrs := by
    rcases hx with ⟨rfl, rfl⟩ | ⟨rfl, rfl⟩
    · exact ⟨hl, by simp⟩
    · exact ⟨hr, by simp⟩
  obtain ⟨h1, h2⟩ := adopt_rep hc hp0 ((nodup_plug.1 ht'.nodup).2.2 p (by simp))
    (by rw [ht'.root, root_plug]) hrx.1 hx0 hnd
  have hs := hsame.trans (adopt_same s' c.par p x.root)
  rw [hpar] at h1 h2
  refine ⟨_, removeWithChild_eq (by rw [hchild s hpl hpr]; exact hret) (hpp.trans hpar), ?_⟩
  rw [hchild s' hpl' hpr']
  refine ⟨⟨c'.plug x, ⟨h1, hnd, h2, by rw [adopt_balance]; exact hbal⟩, ?_⟩, hs.item, hs.live,
    congrArg (· - 1) hs.size, .inl ⟨hs.first, hs.last⟩⟩
  rw [addrs_plug, hbefore, hafter, hrx.2]

end Child

theorem removeSimple_spec (hlr : l = .nil ∨ r = .nil) :
    ∃ s', removeSimple s p = .ok s' ∧ Removed s s' (c.before ++ (l.addrs ++ r.addrs) ++ c.after) := by
  obtain ⟨⟨hp0, hpp, hpl, hpr, hl, hr⟩, -⟩ := rep_plug.1 ht.rep
  have hl0 : l.root ≠ 0 ↔ l ≠ .nil := not_congr hl.root_eq_zero
  have hr0 : r.root ≠ 0 ↔ r ≠ .nil := not_congr hr.root_eq_zero
  rw [removeSimple]
  simp only [hpl, hpr, hpp, hl0, hr0, hl.root_eq_zero, hr.root_eq_zero]
  by_cases hln : l = .nil
  · by_cases hrn : r = .nil
    · subst hln hrn
      obtain ⟨s', hs', hrem⟩ := removeLeaf_spec ht hsize
      rw [ok_bind hs']
      exact ⟨_, rfl, by simpa using hrem⟩
    · subst hln
      obtain ⟨s', hs', hrem⟩ := removeWithChild_spec ht hsize hrn (.inr ⟨rfl, rfl⟩)
        (fun s => s.right p) fun _ _ h => h
      rw [if_neg fun h => h.1 rfl, if_pos ⟨hrn, rfl⟩, ok_bind hs']
      exact ⟨_, rfl, hrem⟩
  · obtain rfl := hlr.resolve_left hln
    obtain ⟨s', hs', hrem⟩ := removeWithChild_spec ht hsize hln (.inl ⟨rfl, rfl⟩)
      (fun s => s.left p) fun _ h _ => h
    rw [if_pos ⟨hln, rfl⟩, ok_bind hs']
    exact ⟨_, rfl, hrem⟩

theorem removeNode_spec :
    ∃ s', removeNode s p = .ok s' ∧ Removed s s' (c.before ++ (l.addrs ++ r.addrs) ++ c.after) := by
  obtain ⟨⟨hp0, hpp, hpl, hpr, hl, hr⟩, hc⟩ := rep_plug.1 ht.rep
  rw [removeNode, hpl, hpr]
  by_cases hlr : l = .nil ∨ r = .nil
  · rw [if_neg fun h => hlr.elim (fun e => h.1 (by rw [e]; rfl)) fun e => h.2 (by rw [e]; rfl)]
    exact removeSimple_spec ht hsize hlr
  obtain ⟨hln, hrn⟩ := not_or.1 hlr
  rw [if_pos ⟨fun e => hln (hl.root_eq_zero.1 e), fun e => hrn (hr.root_eq_zero.1 e)⟩]
  have hlen : r.addrs.length ≤ s.steps := by
    rw [St.steps, hsize, addrs_plug]
    simp only [addrs_node, length_append, length_cons]
    omega
  obtain ⟨k, q, r', hq, rfl, hk⟩ := leftmost_spec hr hrn hlen
  have hmem : q ∈ (k.plug (.node .nil q r')).addrs := mem_plug.2 (.inl (by simp))
  have hqp : q ≠ s.parent p := by
    rw [hpp]
    intro e
    by_cases htop : c = .top
    · exact hr.ne_zero hmem (by rw [e, htop]; rfl)
    · exact (nodup_plug.1 ht.nodup).2.2 q (by simp [hmem]) (e ▸ par_mem htop)
  obtain ⟨s1, hs1, hsame, ht1⟩ := swapNodes_spec ht (mem_plug.2 (.inl (by simp)))
    (mem_plug.2 (.inl (by simp [hmem]))) hqp
  rw [swapped_shape ht.nodup] at ht1
  rw [ok_bind hq, ok_bind hs1]
  obtain ⟨s', hs', hrem⟩ := removeSimple_spec ht1 (by
    rw [hsame.size, hsize, ← swapped_shape ht.nodup, addrs_map, length_map]) (.inl rfl)
  have haddrs : (k.append (.right l q c)).before ++ (Shape.nil.addrs ++ r'.addrs) ++
      (k.append (.right l q c)).after =
        c.before ++ (l.addrs ++ (k.plug (.node .nil q r')).addrs) ++ c.after := by
    simp [before_append, after_append, addrs_plug, before, Hole.after, hk]
  obtain ⟨hrt, hri, hrl, hrs, hre⟩ := hrem
  rw [haddrs] at hrt hre
  refine ⟨s', hs', hrt, hri.trans hsame.item, hrl.trans hsame.live, hsame.size ▸ hrs, ?_⟩
  exact hre.imp (fun h => ⟨h.1.trans hsame.first, h.2.trans hsame.last⟩) id

end Node

/-! ## The ends, and the set of keys -/

/-- The first and the last node without `p`, which has `A` before and `B` behind it. -/
theorem newEnds_spec {A B : List Nat} (hnd : (A ++ p :: B).Nodup)
    (hfirst : s.first = (A ++ p :: B).head?.getD 0) (hlast : s.last = (A ++ p :: B).getLast?.getD 0)
    (hprev : treePrev s p = .ok (A.getLast?.getD 0)) :
    newEnds s p (B.head?.getD 0) = .ok ((A ++ B).head?.getD 0, (A ++ B).getLast?.getD 0) := by
  rw [newEnds]
  rcases A with _ | ⟨a, A⟩ <;> rcases eq_nil_or_concat B with rfl | ⟨B', b, rfl⟩
  · have hf : s.first = p := hfirst
    have hl : s.last = p := hlast
    rw [if_pos (hf.trans hl.symm), assert, if_pos hf.symm]
    rfl
  · have hf : s.first = p := hfirst
    have hl : s.last = b := by simp [hlast, getLast?_cons]
    have hpb : p ≠ b := by rintro rfl; simp at hnd
    rw [if_neg (by rw [hf, hl]; exact hpb), if_pos hf]
    simp [hl]
    rfl
  · have hf : s.first = a := hfirst
    have hl : s.last = p := by simp [hlast, getLast?_cons]
    have hpa : a ≠ p := by rintro rfl; simp at hnd
    rw [if_neg (by rw [hf, hl]; exact hpa), if_neg (by rw [hf]; exact hpa), hl, hprev]
    simp [hf]
  · have hf : s.first = a := hfirst
    have hl : s.last = b := by simp [hlast, getLast?_cons]
    have hpa : a ≠ p := by rintro rfl; simp at hnd
    have hpb : b ≠ p := by rintro rfl; simp [nodup_append] at hnd
    have hab : a ≠ b := by rintro rfl; simp at hnd
    rw [if_neg (by rw [hf, hl]; exact hab), if_neg (by rw [hf]; exact hpa),
      if_neg (by rw [hl]; exact hpb)]
    simp [hf, hl, getLast?_cons]
    rfl

theorem Ordered.ne {A B : List Nat} (h : Ordered key s (A ++ p :: B)) (hq : q ∈ A ++ B) :
    key (s.item q) ≠ key (s.item p) := by
  obtain ⟨-, h2, h3⟩ := pairwise_append.1 h
  rcases mem_append.1 hq with hq | hq
  · exact (h3 q hq p mem_cons_self).ne
  · exact ((pairwise_cons.1 h2).1 q hq).ne'

theorem ends_ne_zero {l : List Nat} (h : ∀ q ∈ l, q ≠ 0) (hl : l ≠ []) :
    l.head?.getD 0 ≠ 0 ∧ l.getLast?.getD 0 ≠ 0 := by
  rw [head?_eq_some_head hl, getLast?_eq_some_getLast hl]
  exact ⟨h _ (head_mem hl), h _ (getLast_mem hl)⟩

theorem IsTree.split {A B : List Nat} (ht : IsTree s 0 t) (hsize : s.currentSize = t.addrs.length)
    (haddrs : t.addrs = A ++ p :: B) :
    treeNext s p = .ok (B.head?.getD 0) ∧ treePrev s p = .ok (A.getLast?.getD 0) ∧
      ∀ first last, ∃ s', removeNode { s with first, last } p = .ok s' ∧
        Removed { s with first, last } s' (A ++ B) := by
  have hnot := (nodup_cons.1 (nodup_middle.1 (haddrs ▸ ht.nodup))).1
  obtain ⟨hpA, hpB⟩ := not_or.1 (mt mem_append.2 hnot)
  obtain ⟨c, l, r, rfl⟩ := exists_plug (haddrs ▸ mem_append_cons_self : p ∈ t.addrs)
  have hplug : (c.plug (.node l p r)).addrs =
      (c.before ++ l.addrs) ++ p :: (r.addrs ++ c.after) := by simp [addrs_plug]
  obtain ⟨rfl, -, rfl⟩ := (append_cons_inj_of_notMem hpA hpB).1 (haddrs.symm.trans hplug)
  refine ⟨treeNext_spec ht hsize, treePrev_spec ht hsize, fun first last => ?_⟩
  have hA : (c.before ++ l.addrs) ++ (r.addrs ++ c.after) =
      c.before ++ (l.addrs ++ r.addrs) ++ c.after := by simp
  rw [hA]
  exact removeNode_spec ⟨ht.rep, ht.nodup, ht.root, ht.bal⟩ hsize

/-- What taking out the node `p` leaves: the node is out of the tree with its item, and live. -/
structure Detached (key : α → κ) (s : St α) (t : Shape) (S : OrdSet κ) (p : Nat) (s' : St α) :
    Prop where
  models : ∃ t', Models key s' t' (S.erase (key (s.item p))) ∧ p ∉ t'.addrs ∧
    ∀ q ∈ t'.addrs, q ∈ t.addrs
  item : s'.item = s.item
  live : s'.live = s.live

variable {A B : List Nat}

theorem detach_spec (h : Models key s t S) (haddrs : t.addrs = A ++ p :: B) :
    ∃ s' t', detach s p = .ok (s', B.head?.getD 0) ∧
      Models key s' t' (S.erase (key (s.item p))) ∧ t'.addrs = A ++ B ∧
      s'.item = s.item ∧ s'.live = s.live := by
  obtain ⟨hnext, hprev, hremove⟩ := h.tree.split h.size haddrs
  obtain ⟨htree, ho, hfirst, hlast, hsize, hkeys, hlive⟩ := h
  have hnd := htree.nodup
  have h0 : ∀ q ∈ t.addrs, q ≠ 0 := fun q hq => htree.rep.ne_zero hq
  rw [haddrs] at hnd ho hfirst hlast hsize hkeys hlive
  have hasserts : s.first ≠ 0 ∧ s.last ≠ 0 := by
    rw [hfirst, hlast]
    exact ends_ne_zero (haddrs ▸ h0) (by simp)
  obtain ⟨s', hs', ⟨t', ht', haddrs'⟩, hitem, hlive', hsize', hends⟩ :=
    hremove ((A ++ B).head?.getD 0) ((A ++ B).getLast?.getD 0)
  have hsub : (A ++ B).Sublist (A ++ p :: B) := (sublist_cons_self p B).append_left A
  refine ⟨s', t', ?_, ⟨ht', ?_, ?_, ?_, ?_, fun k => ?_, ?_⟩, haddrs', hitem, hlive'⟩
  · rw [detach, assert_bind hasserts, ok_bind hnext, ok_bind (newEnds_spec hnd hfirst hlast hprev)]
    exact ok_bind hs' _
  · rw [haddrs', Ordered, hitem]
    exact ho.sublist hsub
  · rw [haddrs']
    rcases hends with h | ⟨hnil, h, -⟩
    · exact h.1
    · rw [h, hnil]; rfl
  · rw [haddrs']
    rcases hends with h | ⟨hnil, -, h⟩
    · exact h.2
    · rw [h, hnil]; rfl
  · rw [haddrs', hsize', hsize]
    simp
  · rw [mem_erase, hkeys, haddrs', hitem]
    constructor
    · rintro ⟨hne, q, hq, rfl⟩
      refine ⟨q, ?_, rfl⟩
      simp only [mem_append, mem_cons] at hq ⊢
      rcases hq with hq | rfl | hq
      · exact .inl hq
      · exact absurd rfl hne
      · exact .inr hq
    · rintro ⟨q, hq, rfl⟩
      exact ⟨ho.ne hq, q, hsub.subset hq, rfl⟩
  · rw [haddrs', hlive']; exact fun q hq => hlive q (hsub.subset hq)

/-! ## Erase and extract -/

theorem eraseAt_spec (h : Models key s t S) (haddrs : t.addrs = A ++ p :: B) :
    ∃ s' t', eraseAt s p = .ok (s', B.head?.getD 0) ∧
      Models key s' t' (S.erase (key (s.item p))) ∧ t'.addrs = A ++ B ∧
      s'.item = s.item ∧ ∀ q ∈ s.live, q ≠ p → q ∈ s'.live := by
  obtain ⟨s', t', hs', ht', haddrs', hitem, hlive⟩ := detach_spec h haddrs
  have hpt : p ∉ t'.addrs := fun hm => (haddrs ▸ h.ordered).ne (haddrs' ▸ hm) rfl
  have hne : ∀ q ∈ s.live, q ≠ p → q ∈ s'.live.erase p := fun q hq hqp =>
    (mem_erase_of_ne hqp).2 (hlive ▸ hq)
  refine ⟨{ s' with live := s'.live.erase p }, t', ok_bind hs' _, ?_, haddrs', hitem, hne⟩
  exact ht'.frame hpt (fun _ _ => ⟨rfl, rfl, rfl⟩) (fun _ _ => rfl) rfl rfl rfl rfl (fun _ _ => rfl)
    fun q hq => (mem_erase_of_ne fun e : q = p => hpt (e ▸ hq)).2 (ht'.live q hq)

theorem mem_of_removed (haddrs : t.addrs = A ++ p :: B) (hq : q ∈ A ++ B) : q ∈ t.addrs :=
  haddrs ▸ ((sublist_cons_self p B).append_left A).subset hq

theorem extractAt_spec (h : Models key s t S) (hp : p ∈ t.addrs) :
    ∃ s', extractAt s p = .ok s' ∧ Detached key s t S p s' := by
  obtain ⟨A, B, haddrs⟩ := append_of_mem hp
  obtain ⟨s', t', hs', ht', haddrs', hitem, hlive⟩ := detach_spec h haddrs
  have hpt : p ∉ t'.addrs := fun hm => (haddrs ▸ h.ordered).ne (haddrs' ▸ hm) rfl
  refine ⟨_, ok_bind hs' _, ⟨t', ?_, hpt, fun q hq => mem_of_removed haddrs (haddrs' ▸ hq)⟩, hitem,
    hlive⟩
  refine ht'.frame hpt (fun q hq => ?_) (fun q hq => update_of_ne hq ..) rfl rfl rfl rfl
    (fun _ _ => rfl) ht'.live
  rw [mem_singleton] at hq
  exact ⟨update_of_ne hq .., update_of_ne hq .., update_of_ne hq ..⟩

theorem erase_spec (h : Models key s t S) (k : κ) :
    ∃ s' n, erase key s k = .ok (s', n) ∧ (n = if k ∈ S then 1 else 0) ∧
      (∃ t', Models key s' t' (S.erase k) ∧ ∀ q ∈ t'.addrs, q ∈ t.addrs) ∧
      s'.item = s.item ∧ ∀ q ∈ s.live, q ∉ t.addrs → q ∈ s'.live := by
  obtain ⟨q, hq, ⟨rfl, hnone⟩ | ⟨hm, rfl⟩⟩ := treeFind_spec (k := k) h.tree h.ordered h.size
  · have hk : k ∉ S := fun hk => by
      obtain ⟨p, hp, e⟩ := (h.keys k).1 hk
      exact hnone p hp e
    refine ⟨s, 0, ok_bind hq _, (if_neg hk).symm, ⟨t, ?_, fun q hq => hq⟩, rfl, fun q hq _ => hq⟩
    rwa [OrdSet.erase_of_not_mem hk]
  · obtain ⟨A, B, haddrs⟩ := append_of_mem hm
    obtain ⟨s', t', hs', hmod, haddrs', hitem, hlive⟩ := eraseAt_spec h haddrs
    refine ⟨s', 1, ?_, (if_pos ((h.keys _).2 ⟨q, hm, rfl⟩)).symm,
      ⟨t', hmod, fun p hp => mem_of_removed haddrs (haddrs' ▸ hp)⟩, hitem,
      fun p hp hpt => hlive p hp fun e => hpt (e ▸ hm)⟩
    rw [erase, ok_bind hq, if_pos (h.tree.rep.ne_zero hm), ok_bind hs']
    rfl

theorem extract_spec (h : Models key s t S) (k : κ) : ∃ s' p, extract key s k = .ok (s', p) ∧
      ((p = 0 ∧ k ∉ S ∧ s' = s) ∨
        (p ∈ t.addrs ∧ key (s.item p) = k ∧ Detached key s t S p s')) := by
  obtain ⟨q, hq, ⟨rfl, hnone⟩ | ⟨hm, rfl⟩⟩ := treeFind_spec (k := k) h.tree h.ordered h.size
  · refine ⟨s, 0, ok_bind hq _, .inl ⟨rfl, fun hk => ?_, rfl⟩⟩
    obtain ⟨p, hp, e⟩ := (h.keys k).1 hk
    exact hnone p hp e
  · obtain ⟨s', hs', hdet⟩ := extractAt_spec h hm
    refine ⟨s', q, ?_, .inr ⟨hm, rfl, hdet⟩⟩
    rw [extract, ok_bind hq, if_pos (h.tree.rep.ne_zero hm), ok_bind hs']
    rfl

/-! ## Clear -/

/-- The walk takes one step down to each node and one up from it: at depth `d`, with `n` nodes
left, `2 * n - d - 1` steps are still to come. -/
theorem clearLoop_spec {fuel : Nat} (hrep : Rep s.toLinks 0 (c.plug (.node l p r)))
    (hnd : (c.plug (.node l p r)).addrs.Nodup)
    (hfuel : 2 * (c.plug (.node l p r)).addrs.length ≤ fuel + c.depth + 1) :
    ∃ s', clearLoop fuel s p = .ok s' ∧ s'.item = s.item ∧
      ∀ q ∈ s.live, q ∉ (c.plug (.node l p r)).addrs → q ∈ s'.live := by
  induction fuel generalizing s c l p r with
  | zero =>
    have := c.depth_le
    simp [addrs_plug] at hfuel
    omega
  | succ fuel ih =>
    obtain ⟨⟨hp0, hpp, hpl, hpr, hl, hr⟩, hc⟩ := rep_plug.1 hrep
    rw [clearLoop, if_neg hp0, hpl, hpr, hpp]
    cases l with
    | node ll lp lr =>
      rw [root_node, if_pos hl.1]
      exact ih (c := .left p r c) hrep hnd (by simp only [plug, depth]; omega)
    | nil =>
      cases r with
      | node rl rp rr =>
        rw [root_node, if_pos hr.1]
        exact ih (c := .right .nil p c) hrep hnd (by simp only [plug, depth]; omega)
      | nil =>
        have hlive : ∀ q ∈ s.live, q ∉ (c.plug (.node .nil p .nil)).addrs → q ∈ s.live.erase p :=
          fun q hq hm => (mem_erase_of_ne fun e : q = p =>
            hm (e ▸ mem_plug.2 (.inl (by simp)))).2 hq
        have hnil : (c.plug .nil).addrs.length + 1 = (c.plug (.node .nil p .nil)).addrs.length := by
          simp [addrs_plug]; omega
        obtain ⟨-, hndc, hdisj⟩ := nodup_plug.1 hnd
        have hnd' : (c.plug .nil).addrs.Nodup := nodup_plug.2 ⟨nodup_nil, hndc, by simp⟩
        by_cases htop : c = .top
        · subst htop
          refine ⟨{ s with live := s.live.erase p }, ?_, rfl, hlive⟩
          unfold clearLoop
          rfl
        · have hrep' : Rep (s.toLinks.setChild c.par p 0) 0 (c.plug .nil) := rep_plug.2
            ⟨trivial, hc.setChild htop hndc hp0 (hdisj p (by simp)) 0⟩
          simp only [ne_eq, hc.par_ne_zero htop, not_false_eq_true, if_true]
          -- the walk goes on at the parent, whose child has become null
          obtain ⟨up, l', r', he, hd⟩ : ∃ (up : Hole) (l' r' : Shape),
              c.plug .nil = up.plug (.node l' c.par r') ∧ up.depth + 1 = c.depth := by
            cases c with
            | top => exact absurd rfl htop
            | left g r' up => exact ⟨up, _, _, rfl, rfl⟩
            | right l' g up => exact ⟨up, _, _, rfl, rfl⟩
          obtain ⟨s', hs', hitem, hl'⟩ := ih (s := { s with
            toLinks := s.toLinks.setChild c.par p 0
            live := s.live.erase p }) (he ▸ hrep') (he ▸ hnd') (by rw [← he]; omega)
          refine ⟨s', hs', hitem, fun q hq hm => hl' q (hlive q hq hm) fun hm' => hm ?_⟩
          rw [← he] at hm'
          exact mem_plug.2 (.inr ((mem_plug.1 hm').resolve_left (by simp)))

theorem clear_spec (h : Models key s t S) : ∃ s', clear s = .ok s' ∧
    Models key s' .nil OrdSet.empty ∧ s'.item = s.item ∧
      ∀ q ∈ s.live, q ∉ t.addrs → q ∈ s'.live := by
  have hempty : ∀ s1 : St α, Models key { s1 with root := 0, first := 0, last := 0, currentSize := 0 }
      .nil empty := fun s1 =>
    ⟨⟨trivial, nodup_nil, rfl, trivial⟩, List.Pairwise.nil, rfl, rfl, rfl,
      fun k => ⟨fun hk => absurd hk not_mem_empty, fun ⟨_, hq, _⟩ => by cases hq⟩,
      fun q hq => by cases hq⟩
  rw [clear, h.tree.root]
  cases t with
  | nil =>
    refine ⟨_, ok_bind ?_ _, hempty s, rfl, fun q hq _ => hq⟩
    unfold clearLoop
    rfl
  | node l p r =>
    have hfuel : 2 * ((Hole.top).plug (.node l p r)).addrs.length ≤
        2 * s.currentSize + Hole.top.depth + 1 := by
      rw [h.size, plug]; omega
    obtain ⟨s', hs', hitem, hlive⟩ := clearLoop_spec (c := .top) h.tree.rep h.tree.nodup hfuel
    exact ⟨_, ok_bind hs' _, hempty s', hitem, hlive⟩

end Dgos.L1.BasicTree
