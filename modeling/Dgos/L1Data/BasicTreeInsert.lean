import Dgos.Core.OrdSet
import Dgos.L1Data.BasicTreeWalk

/-!
# Insertion

`Models key s t S`: the nodes from the root on are the balanced tree `t`, in the order of their
keys, which are the set `S`; the first and the last node and the count are right. The three
ways to insert keep it and add one key to the set.
-/
namespace Dgos.L1.BasicTree

open List Shape Hole Function OrdSet

variable {α κ : Type} [LinearOrder κ] {key : α → κ} {s s' : St α} {c : Hole} {t t' : Shape}
  {S : OrdSet κ} {k : κ} {n p : Nat}

structure Models (key : α → κ) (s : St α) (t : Shape) (S : OrdSet κ) : Prop where
  tree : IsTree s 0 t
  ordered : Ordered key s t.addrs
  first : s.first = t.addrs.head?.getD 0
  last : s.last = t.addrs.getLast?.getD 0
  size : s.currentSize = t.addrs.length
  keys : ∀ k, k ∈ S ↔ ∃ p ∈ t.addrs, key (s.item p) = k
  live : ∀ p ∈ t.addrs, p ∈ s.live

theorem Models.not_mem (h : Models key s t S) (hp : Place key s k t c) : k ∉ S := by
  rw [h.keys]
  rintro ⟨q, hq, rfl⟩
  rw [hp.plug, addrs_plug, addrs_nil, append_nil] at hq
  rcases mem_append.1 hq with hq | hq
  · exact lt_irrefl _ (hp.before q hq)
  · exact lt_irrefl _ (hp.after q hq)

/-! ## A new leaf -/

section Leaf

variable (hrep : Rep s.toLinks 0 (c.plug .nil))
include hrep

theorem linkNode_rep (hnd : c.NodupAround) (hn : n ≠ 0) (hmem : ¬ Mem n c) :
    Rep (linkNode s n c.par (side c)).toLinks 0 (c.plug (.node .nil n .nil)) := by
  have hc := (rep_plug.1 hrep).2
  have hc' : HoleRep ⟨update s.left n 0, update s.right n 0, update s.parent n c.par⟩ c 0 := by
    refine hc.congr fun q hq => ⟨?_, ?_, ?_⟩ <;>
    exact update_of_ne (fun e : q = n => hmem (e ▸ hq)) ..
  cases c with
  | top => simp [linkNode, plug, par, rep_node, hn]
  | left p r up =>
    have hne : n ≠ p := fun e => hmem (e ▸ par_mem (by simp))
    have hlinks : (linkNode s n p (-1)).toLinks = ⟨update (update s.left n 0) p n,
        update s.right n 0, update s.parent n p⟩ := by simp [linkNode, hc.1]
    rw [par, side, hlinks]
    exact rep_plug.2 ⟨by simp [rep_node, hn, hne, par], hc'.setLeft hnd n⟩
  | right l p up =>
    have hne : n ≠ p := fun e => hmem (e ▸ par_mem (by simp))
    have hlinks : (linkNode s n p 1).toLinks = ⟨update s.left n 0,
        update (update s.right n 0) p n, update s.parent n p⟩ := by
      simp [linkNode, hc.1]
    rw [par, side, hlinks]
    exact rep_plug.2 ⟨by simp [rep_node, hn, hne, par], hc'.setRight hnd n⟩

variable (hroot : s.root = (c.plug .nil).root)
include hroot

theorem linkNode_root (d : Int) :
    (linkNode s n c.par d).root = (c.plug (.node .nil n .nil)).root := by
  have hc := (rep_plug.1 hrep).2
  rw [root_plug] at hroot ⊢
  cases c with
  | top => rfl
  | left p r up => exact (if_neg hc.1).trans hroot
  | right l p up => exact (if_neg hc.1).trans hroot

theorem root_ne_zero (hc : c ≠ .top) : s.root ≠ 0 := by
  rw [hroot]
  refine fun e => ?_
  have hnil := hrep.root_eq_zero.1 e
  have hmem := mem_plug.2 (.inr (par_mem hc) : c.par ∈ Shape.nil.addrs ∨ Mem c.par c)
  rw [hnil] at hmem
  cases hmem

theorem linkNode_first (h : s.first = (c.before ++ c.after).head?.getD 0) (hnd : c.NodupAround) :
    (linkNode s n c.par (side c)).first = (c.before ++ n :: c.after).head?.getD 0 := by
  cases c with
  | top => exact if_pos (.inl hroot)
  | left p r up =>
    have h0 := root_ne_zero hrep hroot (by simp)
    simp only [linkNode, h0, side, par, before, Hole.after, false_or] at h ⊢
    unfold NodupAround at hnd
    cases hb : up.before with
    | nil => rw [hb] at h; exact if_pos ⟨h.symm, by decide⟩
    | cons x xs =>
      rw [hb] at h
      simp only [before, Hole.after, hb] at hnd
      rw [if_neg fun hp => ?_, h]
      · rfl
      · have hx : p = x := hp.1.trans h
        simp [hx] at hnd
  | right l p up =>
    have h0 := root_ne_zero hrep hroot (by simp)
    simp only [linkNode, h0, side, false_or]
    rw [h]
    simp [before, Hole.after, head?_append]

theorem linkNode_last (h : s.last = (c.before ++ c.after).getLast?.getD 0) (hnd : c.NodupAround) :
    (linkNode s n c.par (side c)).last = (c.before ++ n :: c.after).getLast?.getD 0 := by
  cases c with
  | top => exact if_pos (.inl hroot)
  | left p r up =>
    have h0 := root_ne_zero hrep hroot (by simp)
    simp only [linkNode, h0, side, false_or]
    rw [h]
    simp [before, Hole.after, getLast?_append, getLast?_cons]
  | right l p up =>
    have h0 := root_ne_zero hrep hroot (by simp)
    simp only [linkNode, h0, side, par, before, Hole.after, false_or] at h ⊢
    unfold NodupAround at hnd
    rcases eq_nil_or_concat up.after with ha | ⟨xs, x, ha⟩
    · rw [ha] at h
      rw [ha, if_pos ⟨by simp [h], by decide⟩]
      simp
    · rw [ha] at h
      simp only [before, Hole.after, ha] at hnd
      rw [if_neg fun hp => ?_, h, ha]
      · simp [getLast?_cons]
      · have hx : p = x := hp.1.trans (by simp [h, getLast?_cons])
        simp [hx, nodup_append] at hnd

end Leaf

theorem linkNode_pending (ht : IsTree s 0 (c.plug .nil)) (hn : n ≠ 0)
    (hmem : n ∉ (c.plug .nil).addrs) :
    Pending (linkNode s n c.par (side c)) 0 0 c (.node .nil n .nil) := by
  obtain ⟨-, hndc, -⟩ := nodup_plug.1 ht.nodup
  have hmem' : ¬ Mem n c := fun hm => hmem (mem_plug.2 (.inr hm))
  have hD : ¬ Mem 0 c := fun hm => ht.rep.ne_zero (mem_plug.2 (.inr hm)) rfl
  refine ⟨linkNode_rep ht.rep hndc hn hmem', ?_, linkNode_root ht.rep ht.root _, ?_, ?_⟩
  · refine nodup_plug.2 ⟨by simp, hndc, fun q hq => ?_⟩
    simp only [addrs_node, addrs_nil, nil_append, mem_singleton] at hq
    exact hq ▸ hmem'
  · simp [bal_node hn, linkNode]
  · exact ((bal_plug hD).1 ht.bal).2.congr fun q hq =>
      update_of_ne (fun e : q = n => hmem' (e ▸ hq)) ..

/-! ## The three ways to insert -/

/-- The new node `n` in its place, up to the root. -/
theorem link_spec (h : Models key s t S) (hp : Place key s k t c) (hn : n ≠ 0) (hmem : n ∉ t.addrs)
    (hlive : n ∈ s.live) (hkey : key (s.item n) = k) :
    ∃ s' t', retraceInsert (linkNode s n c.par (side c)).steps (linkNode s n c.par (side c)) n =
      .ok s' ∧ Models key s' t' (S.insert k).1 ∧ s'.item = s.item ∧ s'.live = s.live ∧
        t'.addrs = c.before ++ n :: c.after := by
  obtain ⟨hplug, hbefore, hafter⟩ := hp
  subst hplug
  have hheight : (Shape.node .nil n .nil).height 0 = 1 := by rw [height_node hn]; rfl
  have hpend : Pending (linkNode s n c.par (side c)) 0 ((Shape.node .nil n .nil).height 0 - 1) c
      (.node .nil n .nil) := by
    rw [hheight]; exact linkNode_pending h.tree hn hmem
  have hold : (c.plug .nil).addrs = c.before ++ c.after := by simp [addrs_plug]
  obtain ⟨htree, ho, hfirst, hlast, hsize, hkeys, hl⟩ := h
  rw [hold] at ho hfirst hlast hsize hkeys hl
  have hfuel : c.depth ≤ (linkNode s n c.par (side c)).steps := by
    have := c.depth_le
    simp only [St.steps, linkNode, hsize, length_append]
    omega
  obtain ⟨s', t', hr, hsame, ht, haddrs⟩ :=
    retraceInsert_spec hpend (by simp) (fun _ => hheight) hfuel
  have hnew : t'.addrs = c.before ++ n :: c.after := by rw [haddrs]; simp [addrs_plug]
  have hnd : c.NodupAround := (nodup_plug.1 htree.nodup).2.1
  have hitem : s'.item = s.item := hsame.item
  refine ⟨s', t', hr, ⟨ht, ?_, ?_, ?_, ?_, fun k' => ?_, fun q hq => ?_⟩, hitem, hsame.live, hnew⟩
  · rw [hnew, Ordered, hitem]
    obtain ⟨h1, h2, h3⟩ := pairwise_append.1 ho
    refine pairwise_append.2 ⟨h1, pairwise_cons.2 ⟨fun q hq => ?_, h2⟩, fun q hq q' hq' => ?_⟩
    · rw [hkey]; exact hafter q hq
    · rcases mem_cons.1 hq' with rfl | hq'
      · rw [hkey]; exact hbefore q hq
      · exact h3 q hq q' hq'
  · rw [hsame.first, hnew]
    exact linkNode_first htree.rep htree.root hfirst hnd
  · rw [hsame.last, hnew]
    exact linkNode_last htree.rep htree.root hlast hnd
  · rw [hsame.size, hnew, linkNode, hsize]
    simp only [length_append, length_cons]
    omega
  · rw [mem_insert, hkeys, hnew, hitem]
    simp only [mem_append, mem_cons]
    constructor
    · rintro (rfl | ⟨q, hq, rfl⟩)
      · exact ⟨n, by simp, hkey⟩
      · exact ⟨q, hq.imp id .inr, rfl⟩
    · rintro ⟨q, hq | rfl | hq, rfl⟩
      · exact .inr ⟨q, .inl hq, rfl⟩
      · exact .inl hkey
      · exact .inr ⟨q, .inr hq, rfl⟩
  · rw [hsame.live]
    rw [hnew, mem_append, mem_cons] at hq
    rcases hq with hq | rfl | hq
    · exact hl q (mem_append.2 (.inl hq))
    · exact hlive
    · exact hl q (mem_append.2 (.inr hq))

theorem Models.frame (h : Models key s t S) (hp : p ∉ t.addrs)
    (hlinks : s.toLinks.EqOff s'.toLinks [p]) (hbal : ∀ q ≠ p, s'.balance q = s.balance q)
    (hroot : s'.root = s.root) (hfirst : s'.first = s.first) (hlast : s'.last = s.last)
    (hsize : s'.currentSize = s.currentSize) (hitem : ∀ q ∈ t.addrs, s'.item q = s.item q)
    (hlive : ∀ q ∈ t.addrs, q ∈ s'.live) : Models key s' t S := by
  obtain ⟨⟨h1, h2, h3, h4⟩, h5, h6, h7, h8, h9, -⟩ := h
  have hne : ∀ q ∈ t.addrs, q ≠ p := fun q hq e => hp (e ▸ hq)
  refine ⟨⟨h1.of_eqOff hlinks fun q hq => ?_, h2, hroot.trans h3, h4.congr fun q hq => ?_⟩, ?_,
    hfirst.trans h6, hlast.trans h7, hsize.trans h8, fun k => ?_, hlive⟩
  · rw [mem_singleton]; exact hne q hq
  · exact hbal q (hne q hq)
  · exact h5.imp_of_mem fun {a b} ha hb hlt => by rwa [hitem a ha, hitem b hb]
  · rw [h9 k]
    exact exists_congr fun q => and_congr_right fun hq => by rw [hitem q hq]

theorem Models.fresh (h : Models key s t S) (v : α) (hn : n ∉ s.live) :
    Models key (setItem { s with live := n :: s.live } n v) t S :=
  h.frame (fun hm => hn (h.live n hm)) (fun _ _ => ⟨rfl, rfl, rfl⟩) (fun _ _ => rfl) rfl rfl rfl rfl
    (fun p hp => update_of_ne (fun e : p = n => hn (e ▸ h.live p hp)) ..)
    fun p hp => mem_cons_of_mem _ (h.live p hp)

/-- What inserting the key `k` answers: a node with the key, and whether the key is new. The tree
gains at most a node with `N`, and every node that is live keeps its item. -/
structure Inserted (key : α → κ) (s : St α) (t : Shape) (S : OrdSet κ) (k : κ) (N : Nat → Prop)
    (res : St α × Nat × Bool) : Prop where
  models : ∃ t', Models key res.1 t' (S.insert k).1 ∧ res.2.1 ∈ t'.addrs ∧
    ∀ q ∈ t'.addrs, q ∈ t.addrs ∨ N q
  key_eq : key (res.1.item res.2.1) = k
  grown : res.2.2 = (S.insert k).2
  kept : ∀ q ∈ s.live, q ∈ res.1.live ∧ res.1.item q = s.item q

variable {N : Nat → Prop}

theorem Models.found (h : Models key s' t S) (hq : p ∈ t.addrs) (hkey : key (s'.item p) = k)
    (hkept : ∀ q ∈ s.live, q ∈ s'.live ∧ s'.item q = s.item q) :
    Inserted key s t S k N (s', p, false) := by
  have hS := OrdSet.insert_of_mem ((h.keys k).2 ⟨p, hq, hkey⟩)
  exact ⟨⟨t, hS ▸ h, hq, fun q hq => .inl hq⟩, hkey, by rw [hS], hkept⟩

theorem Models.link (h : Models key s' t S) (hp : Place key s' k t c) (hn : n ≠ 0)
    (hmem : n ∉ t.addrs) (hlive : n ∈ s'.live) (hkey : key (s'.item n) = k)
    (hkept : ∀ q ∈ s.live, q ∈ s'.live ∧ s'.item q = s.item q) (hN : N n) :
    ∃ s'', retraceInsert (linkNode s' n c.par (side c)).steps (linkNode s' n c.par (side c)) n =
      .ok s'' ∧ Inserted key s t S k N (s'', n, true) := by
  obtain ⟨s'', t', hr, hm, hitem, hlive', haddrs⟩ := link_spec h hp hn hmem hlive hkey
  refine ⟨s'', hr, ⟨⟨t', hm, by simp [haddrs], fun q hq => ?_⟩, by rw [hitem, hkey], ?_, ?_⟩⟩
  · rw [hp.plug, addrs_plug]
    rw [haddrs, mem_append, mem_cons] at hq
    simp only [addrs_nil, append_nil, mem_append]
    rcases hq with hq | rfl | hq
    · exact .inl (.inl hq)
    · exact .inr hN
    · exact .inl (.inr hq)
  · rw [insert_snd, decide_eq_true (h.not_mem hp)]
  · rw [hitem, hlive']; exact hkept

theorem side_ne_zero (c : Hole) : side c ≠ 0 := by cases c <;> simp [side]

theorem allocate_spec (s : St α) (n : Nat) : Ensures (· = .env) (allocate s n) fun s' =>
    n ≠ 0 ∧ n ∉ s.live ∧ s' = { s with live := n :: s.live } := by
  unfold allocate
  split
  · rfl
  · rename_i h
    exact ⟨fun e => h (.inl e), fun hm => h (.inr hm), rfl⟩

theorem Place.congr (hp : Place key s k t c) (h : ∀ p ∈ t.addrs, s'.item p = s.item p) :
    Place key s' k t c := by
  obtain ⟨rfl, hb, ha⟩ := hp
  refine ⟨rfl, fun p hp => ?_, fun p hp => ?_⟩
  · rw [h p (mem_plug.2 (.inr (.inl hp)))]; exact hb p hp
  · rw [h p (mem_plug.2 (.inr (.inr hp)))]; exact ha p hp

theorem fresh_kept {v : α} (hn : n ∉ s.live) : ∀ q ∈ s.live,
    q ∈ n :: s.live ∧ (setItem { s with live := n :: s.live } n v).item q = s.item q := fun q hq =>
  ⟨mem_cons_of_mem _ hq, update_of_ne (fun e : q = n => hn (e ▸ hq)) ..⟩

theorem setItem_linkNode (s : St α) (n p : Nat) (d : Int) (v : α) :
    setItem (linkNode s n p d) n v = linkNode (setItem s n v) n p d := rfl

theorem insert_spec (h : Models key s t S) (v : α) (n : Nat) :
    Ensures (· = .env) (insert key s v n) (Inserted key s t S (key v) (· ∉ s.live)) := by
  rw [insert]
  rcases insPlace_spec h.tree h.ordered h.size with ⟨q, hq, hkey, hins⟩ | ⟨c, hp, hins⟩
  · rw [hins]
    exact h.found hq hkey fun q hq => ⟨hq, rfl⟩
  rw [hins]
  change Ensures _ (if side c = 0 then _ else _) _
  rw [if_neg (side_ne_zero c)]
  refine (allocate_spec s n).bind fun s1 => ?_
  rintro ⟨hn0, hn, rfl⟩
  have hkept := fresh_kept (v := v) hn
  obtain ⟨s', hr, hs'⟩ := (h.fresh v hn).link (N := (· ∉ s.live))
    (hp.congr fun q hq => (hkept q (h.live q hq)).2) hn0 (fun hm => hn (h.live n hm))
    mem_cons_self (congrArg key (update_self ..)) hkept hn
  simp only [setItem_linkNode, hr]
  exact hs'

theorem emplace_spec (h : Models key s t S) (v : α) (n : Nat) :
    Ensures (· = .env) (emplace key s v n) (Inserted key s t S (key v) (· ∉ s.live)) := by
  refine (allocate_spec s n).bind fun s1 => ?_
  rintro ⟨hn0, hn, rfl⟩
  have hf := h.fresh v hn
  have hkept := fresh_kept (v := v) hn
  have hkey : key ((setItem { s with live := n :: s.live } n v).item n) = key v :=
    congrArg key (update_self ..)
  rcases insPlace_spec (k := key v) hf.tree hf.ordered hf.size with
    ⟨q, hq, hkeyq, hins⟩ | ⟨c, hp, hins⟩
  · simp only [hins]
    have hlive : ∀ q ∈ s.live, q ∈ (n :: s.live).erase n := fun q hq => by
      rwa [erase_cons_head]
    have hm : Models key { setItem { s with live := n :: s.live } n v with
        live := (n :: s.live).erase n } t S :=
      hf.frame (fun hm => hn (h.live n hm)) (fun _ _ => ⟨rfl, rfl, rfl⟩) (fun _ _ => rfl) rfl rfl rfl
        rfl (fun _ _ => rfl) fun q hq => hlive q (h.live q hq)
    exact hm.found hq hkeyq fun q hq => ⟨hlive q hq, (hkept q hq).2⟩
  · simp only [hins]
    change Ensures _ (if side c = 0 then _ else _) _
    rw [if_neg (side_ne_zero c)]
    obtain ⟨s', hr, hs'⟩ := hf.link (N := (· ∉ s.live)) hp hn0 (fun hm => hn (h.live n hm))
      mem_cons_self hkey hkept hn
    rw [hr]
    exact hs'

theorem insertHeld_spec (h : Models key s t S) (hn0 : n ≠ 0) (hn : n ∈ s.live)
    (hmem : n ∉ t.addrs) :
    Ensures (· = .env) (insertHeld key s n) (Inserted key s t S (key (s.item n)) (· = n)) := by
  have hkept : ∀ q ∈ s.live, q ∈ s.live ∧ s.item q = s.item q := fun q hq => ⟨hq, rfl⟩
  rw [insertHeld]
  rcases insPlace_spec h.tree h.ordered h.size with
    ⟨q, hq, hkey, hins⟩ | ⟨c, hp, hins⟩
  · rw [hins]
    exact h.found hq hkey hkept
  rw [hins]
  change Ensures _ (if side c = 0 then _ else _) _
  rw [if_neg (side_ne_zero c)]
  obtain ⟨s', hr, hs'⟩ := h.link (N := (· = n)) hp hn0 hmem hn rfl hkept rfl
  rw [hr]
  exact hs'

end Dgos.L1.BasicTree
