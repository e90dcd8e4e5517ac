import Dgos.L1Data.BasicTreeRotate

/-!
# Retracing

`__retrace_insert` and `__retrace_delete` walk up from a subtree whose height has changed by
one and restore the balances. Both are proved by induction on the hole the subtree hangs in.
While a node is being removed it is still linked; its address is `D` and it is not counted.

Results:
* `retraceInsert_spec`: after a subtree has grown by one level the whole tree is balanced, with
  the nodes in the order they had.
* `retraceDeleteLoop_spec`: the same after a subtree has lost one level; the subtree itself and
  the parent it hangs below stay.
-/
namespace Dgos.L1.BasicTree

open Shape Hole Function Pending Nat

variable {α : Type} {s : St α} {c up : Hole} {l r z n : Shape} {p D h fuel h' : Nat} {b : Int}

theorem setBalance_same (s : St α) (p : Nat) (b : Int) : Same s (setBalance s p b) :=
  ⟨rfl, rfl, rfl, rfl, rfl⟩

theorem setBalance_frame (hnd : (up.plug (.node l p r)).addrs.Nodup) (b : Int) :
    (Bal s.balance D l → Bal (setBalance s p b).balance D l) ∧
      (Bal s.balance D r → Bal (setBalance s p b).balance D r) ∧
      (HoleBal s.balance D up h → HoleBal (setBalance s p b).balance D up h) := by
  obtain ⟨hnd', -, hdisj⟩ := nodup_plug.1 hnd
  obtain ⟨-, -, hpl, hpr, -⟩ := nodup_node.1 hnd'
  have hB : ∀ q ≠ p, (setBalance s p b).balance q = s.balance q := fun q hq =>
    update_of_ne hq ..
  refine ⟨fun hl => ?_, fun hr => ?_, fun hup => ?_⟩
  · exact hl.congr fun q hq => hB q (ne_of_mem_of_not_mem hq hpl)
  · exact hr.congr fun q hq => hB q (ne_of_mem_of_not_mem hq hpr)
  · exact hup.congr fun q hq => hB q fun e => hdisj p (by simp) (e ▸ hq)

theorem setBalance_pending (hrep : Rep s.toLinks 0 (up.plug (.node l p r)))
    (hnd : (up.plug (.node l p r)).addrs.Nodup) (hroot : s.root = (up.plug (.node l p r)).root)
    (hp : p ≠ D) (hl : Bal s.balance D l) (hr : Bal s.balance D r) (hup : HoleBal s.balance D up h)
    (hb : b = (r.height D : Int) - l.height D ∧ -1 ≤ b ∧ b ≤ 1) :
    Pending (setBalance s p b) D h up (.node l p r) := by
  obtain ⟨hl', hr', hup'⟩ := setBalance_frame hnd b
  have hp' : (setBalance s p b).balance p = b := update_self ..
  exact ⟨hrep, hnd, hroot, (bal_node hp).2 ⟨hp'.symm ▸ hb, hl' hl, hr' hr⟩, hup' hup⟩

namespace Pending

/-! ## One level up -/

/-- What the shape around `p` says about the links of `p`. -/
theorem links_at (hrep : Rep s.toLinks 0 (up.plug (.node l p r)))
    (hnd : (up.plug (.node l p r)).addrs.Nodup) :
    s.parent p = up.par ∧ s.left p = l.root ∧ s.right p = r.root ∧
      (l ≠ .nil → s.parent l.root = p ∧ l.root ≠ r.root) ∧
      (r ≠ .nil → s.parent r.root = p ∧ r.root ≠ l.root) := by
  obtain ⟨⟨-, hpp, hpl, hpr, hl, hr⟩, -⟩ := rep_plug.1 hrep
  obtain ⟨-, -, -, -, hd⟩ := nodup_node.1 (nodup_plug.1 hnd).1
  exact ⟨hpp, hpl, hpr, fun hl0 => ⟨hl.parent_root hl0, hl.root_ne hd hl0⟩,
    fun hr0 => ⟨hr.parent_root hr0, hr.root_ne (fun q hq hq' => hd q hq' hq) hr0⟩⟩

theorem zero_not_mem (hs : Pending s D h c z) : 0 ∉ z.addrs ∧ ¬ Mem 0 c :=
  ⟨fun hm => hs.rep.ne_zero (mem_plug.2 (.inl hm)) rfl,
    fun hm => hs.rep.ne_zero (mem_plug.2 (.inr hm)) rfl⟩

theorem setLeft (hs : Pending s D h (.left p r up) z)
    (hb : b = (r.height D : Int) - z.height D ∧ -1 ≤ b ∧ b ≤ 1)
    (hh : max h (r.height D) + 1 = h') : Pending (setBalance s p b) D h' up (.node z p r) := by
  obtain ⟨hp, -, hr, hup⟩ := hs.hole
  exact hh ▸ setBalance_pending hs.rep hs.nodup hs.root hp hs.bal hr hup hb

theorem setRight (hs : Pending s D h (.right l p up) z)
    (hb : b = (z.height D : Int) - l.height D ∧ -1 ≤ b ∧ b ≤ 1)
    (hh : max (l.height D) h + 1 = h') : Pending (setBalance s p b) D h' up (.node l p z) := by
  obtain ⟨hp, -, hl, hup⟩ := hs.hole
  exact hh ▸ setBalance_pending hs.rep hs.nodup hs.root hp hl hs.bal hup hb

/-- The node `p` has been replaced by the tree `k.plug n`, whose root `x.2` hangs where `p` did. -/
def Replaced (s : St α) (D h : Nat) (up : Hole) (p : Nat) (x : St α × Nat) (n : Shape)
    (before after : List Nat) (height : Nat) : Prop :=
  ∃ k : Hole, Same s (adopt x.1 up.par p x.2) ∧
    Pending (adopt x.1 up.par p x.2) D h up (k.plug n) ∧ (k.plug n).root = x.2 ∧ k.par = p ∧
    k.before = before ∧ k.after = after ∧ (k.plug n).height D = height

section

variable (hrep : Rep s.toLinks 0 (up.plug (.node l p r)))
  (hnd : (up.plug (.node l p r)).addrs.Nodup) (hroot : s.root = (up.plug (.node l p r)).root)
  (hup : HoleBal s.balance D up h)
include hrep hnd hroot hup

theorem replaced {x : St α × Nat} {before after : List Nat} (hk : ∃ k,
      Rotated s x.1 D x.2 (.node l p r) n k ∧ k.before = before ∧ k.after = after ∧
        (k.plug n).height D = h')
    (haddrs : before ++ n.addrs ++ after = (Shape.node l p r).addrs) :
    Replaced s D h up p x n before after h' := by
  obtain ⟨k, hk, rfl, rfl, hheight⟩ := hk
  obtain ⟨h1, h2⟩ := adopt_spec hrep hnd hroot (by simp) hup hk ((addrs_plug ..).trans haddrs)
  exact ⟨k, h1, h2, hk.root, hk.par, rfl, rfl, hheight⟩

variable (hp : p ≠ D) (hl : Bal s.balance D l) (hr : Bal s.balance D r)
include hp hl hr

/-- The rotation of `p`, whose right subtree `r` has become two levels higher than `l`. -/
theorem rotateLeft (hD : D ∉ r.addrs) (hh : r.height D = l.height D + 2) :
    Replaced s D h up p (rebalanceRight s p r.root) l [] (p :: r.addrs)
      (l.height D + if s.balance r.root = 0 then 3 else 2) :=
  replaced hrep hnd hroot hup (rebalanceRight_spec (rep_plug.1 hrep).1 (nodup_plug.1 hnd).1 hp hD hh
    hl hr) rfl

theorem rotateRight (hD : D ∉ l.addrs) (hh : l.height D = r.height D + 2) :
    Replaced s D h up p (rebalanceLeft s p l.root) r (l.addrs ++ [p]) []
      (r.height D + if s.balance l.root = 0 then 3 else 2) :=
  replaced hrep hnd hroot hup (rebalanceLeft_spec (rep_plug.1 hrep).1 (nodup_plug.1 hnd).1 hp hD hh
    hr hl) (by simp)

end

end Pending

/-! ## After an insertion -/

theorem retraceInsert_spec (hs : Pending s 0 (z.height 0 - 1) c z) (hz : z ≠ .nil)
    (hgrown : s.balance z.root = 0 → z.height 0 = 1) (hfuel : c.depth ≤ fuel) :
    ∃ s' t, retraceInsert fuel s z.root = .ok s' ∧ Same s s' ∧ IsTree s' 0 t ∧
      t.addrs = (c.plug z).addrs := by
  induction c generalizing z s fuel with
  | top =>
    refine ⟨s, z, ?_, Same.refl s, ⟨hs.rep, hs.nodup, hs.root, hs.bal⟩, rfl⟩
    unfold retraceInsert
    exact if_pos (hs.rep.parent_root hz)
  | left p r up ih =>
    obtain ⟨hp, ⟨hB, hge, hle⟩, hbr, hbu⟩ := hs.hole
    obtain ⟨fuel, rfl⟩ := exists_eq_add_one.2 (zero_lt_of_lt hfuel)
    obtain ⟨hpp, -, hpr, hl, -⟩ := links_at hs.rep hs.nodup
    have hz0 : 0 ∉ z.addrs := hs.zero_not_mem.1
    have hzh : z.height 0 ≠ 0 := fun e => hz (eq_nil_of_height_eq_zero e hz0)
    rw [retraceInsert]
    simp only [(hl hz).1, if_neg hp, hpr, if_neg (hl hz).2]
    by_cases hneg : s.balance p < 0
    · simp only [if_pos hneg, hpp]
      obtain ⟨k, hsame, hk, -, -, hbefore, hafter, hheight⟩ := Pending.rotateRight hs.rep hs.nodup
        hs.root hbu hp hs.bal hbr hz0 (by omega)
      rw [if_neg fun e => by omega] at hheight
      have hh : max (z.height 0 - 1) (r.height 0) + 1 = (k.plug r).height 0 := by omega
      rw [hh] at hk
      exact ⟨_, _, rfl, hsame, hk.isTree hk.zero_not_mem.2,
        by simp [addrs_plug, hbefore, hafter, before, after]⟩
    · simp only [if_neg hneg]
      by_cases hpos : 0 < s.balance p
      · simp only [if_pos hpos]
        have hk := hs.setLeft (b := 0) (by omega)
          (show _ = (Shape.node z p r).height 0 by rw [height_node hp]; omega)
        exact ⟨_, _, rfl, setBalance_same .., hk.isTree hk.zero_not_mem.2, rfl⟩
      · simp only [if_neg hpos]
        have hk := hs.setLeft (b := -1) (by omega)
          (show _ = (Shape.node z p r).height 0 - 1 by rw [height_node hp]; omega)
        obtain ⟨s', t, hr, hsame, ht⟩ := ih hk (by simp) (by simp [setBalance])
          (le_of_succ_le_succ hfuel)
        exact ⟨s', t, hr, (setBalance_same ..).trans hsame, ht⟩
  | right l p up ih =>
    obtain ⟨hp, ⟨hB, hge, hle⟩, hbl, hbu⟩ := hs.hole
    obtain ⟨fuel, rfl⟩ := exists_eq_add_one.2 (zero_lt_of_lt hfuel)
    obtain ⟨hpp, -, hpr, -, hr⟩ := links_at hs.rep hs.nodup
    have hz0 : 0 ∉ z.addrs := hs.zero_not_mem.1
    have hzh : z.height 0 ≠ 0 := fun e => hz (eq_nil_of_height_eq_zero e hz0)
    rw [retraceInsert]
    simp only [(hr hz).1, if_neg hp, hpr, if_pos]
    by_cases hpos : 0 < s.balance p
    · simp only [if_pos hpos, hpp]
      obtain ⟨k, hsame, hk, -, -, hbefore, hafter, hheight⟩ := Pending.rotateLeft hs.rep hs.nodup
        hs.root hbu hp hbl hs.bal hz0 (by omega)
      rw [if_neg fun e => by omega] at hheight
      have hh : max (l.height 0) (z.height 0 - 1) + 1 = (k.plug l).height 0 := by omega
      rw [hh] at hk
      exact ⟨_, _, rfl, hsame, hk.isTree hk.zero_not_mem.2,
        by simp [addrs_plug, hbefore, hafter, before, after]⟩
    · simp only [if_neg hpos]
      by_cases hneg : s.balance p < 0
      · simp only [if_pos hneg]
        have hk := hs.setRight (b := 0) (by omega)
          (show _ = (Shape.node l p z).height 0 by rw [height_node hp]; omega)
        exact ⟨_, _, rfl, setBalance_same .., hk.isTree hk.zero_not_mem.2, rfl⟩
      · simp only [if_neg hneg]
        have hk := hs.setRight (b := 1) (by omega)
          (show _ = (Shape.node l p z).height 0 - 1 by rw [height_node hp]; omega)
        obtain ⟨s', t, hr, hsame, ht⟩ := ih hk (by simp) (by simp [setBalance])
          (le_of_succ_le_succ hfuel)
        exact ⟨s', t, hr, (setBalance_same ..).trans hsame, ht⟩

/-! ## Before a removal -/

theorem retraceDeleteLoop_zero (fuel : Nat) (s : St α) (N : Nat) :
    retraceDeleteLoop fuel s 0 N = .ok s := by
  unfold retraceDeleteLoop
  exact if_pos rfl

/-- The tree `c'.plug n` that is left when the loop is done, with `n` where it was. -/
def Restored (s s' : St α) (D : Nat) (c c' : Hole) (n : Shape) : Prop :=
  Same s s' ∧ IsTree s' D (c'.plug n) ∧ c'.par = c.par ∧ c'.before = c.before ∧ c'.after = c.after

theorem Restored.append {s1 s' : St α} {c' k : Hole} (h : Restored s1 s' D up c' (k.plug n))
    (hs : Same s s1) (hpar : k.par = c.par) (h0 : k.par ≠ 0)
    (hbefore : c.before = up.before ++ k.before) (hafter : c.after = k.after ++ up.after) :
    Restored s s' D c (k.append c') n := by
  obtain ⟨h1, h2, -, h4, h5⟩ := h
  refine ⟨hs.trans h1, ?_, (par_append c' h0).trans hpar, ?_, ?_⟩
  · rw [plug_append]; exact h2
  · rw [before_append, h4, hbefore]
  · rw [after_append, h5, hafter]

/-- After a rotation: the height is what it was and the loop stops, or it goes on. -/
theorem retraceDeleteLoop_replaced {x : St α × Nat} {before after : List Nat}
    (hk : Replaced s D h up p x n before after (n.height D + if b = 0 then 3 else 2))
    (hh : h = n.height D + 3) (hn : n ≠ .nil) (hp0 : p ≠ 0) (hD : ¬ Mem D up) (hpar : p = c.par)
    (hbefore : c.before = up.before ++ before) (hafter : c.after = after ++ up.after)
    (ih : ∀ {s : St α} {n : Shape}, Pending s D (n.height D + 1) up n → n ≠ .nil →
      ∃ s' c', retraceDeleteLoop fuel s up.par n.root = .ok s' ∧ Restored s s' D up c' n) :
    ∃ s' c', (if up.par ≠ 0 ∧ b = 0 then pure (adopt x.1 up.par p x.2)
      else retraceDeleteLoop fuel (adopt x.1 up.par p x.2) up.par x.2) = .ok s' ∧
      Restored s s' D c c' n := by
  obtain ⟨k, hsame, hk, hN, hkp, rfl, rfl, hheight⟩ := hk
  have hc {s' c'} (hc' : Restored _ s' D up c' (k.plug n)) : Restored s s' D c (k.append c') n :=
    hc'.append hsame (hkp.trans hpar) (hkp ▸ hp0) hbefore hafter
  by_cases hb : b = 0
  · rw [if_pos hb, ← hh] at hheight
    refine ⟨_, _, ?_, hc ⟨.refl _, (hheight ▸ hk).isTree hD, rfl, rfl, rfl⟩⟩
    by_cases hup : up.par = 0
    · rw [if_neg fun h => h.1 hup, hup, retraceDeleteLoop_zero]
    · exact if_pos ⟨hup, hb⟩
  · rw [if_neg hb] at hheight
    obtain ⟨s', c', hr, hc'⟩ := ih (by rwa [hheight, ← hh]) fun e => by
      simpa [addrs_plug, hn] using congrArg addrs e
    rw [hN] at hr
    exact ⟨s', _, by rw [if_neg fun h => hb h.2, hr], hc hc'⟩

theorem retraceDeleteLoop_spec (hs : Pending s D (n.height D + 1) c n) (hn : n ≠ .nil)
    (hD : ¬ Mem D c) (hfuel : c.depth ≤ fuel) :
    ∃ s' c', retraceDeleteLoop fuel s c.par n.root = .ok s' ∧ Restored s s' D c c' n := by
  induction c generalizing n s fuel with
  | top =>
    exact ⟨s, .top, retraceDeleteLoop_zero .., Same.refl s, ⟨hs.rep, hs.nodup, hs.root, hs.bal⟩,
      rfl, rfl, rfl⟩
  | left p r up ih =>
    obtain ⟨hp, ⟨hB, hge, hle⟩, hbr, hbu⟩ := hs.hole
    obtain ⟨fuel, rfl⟩ := exists_eq_add_one.2 (zero_lt_of_lt hfuel)
    obtain ⟨hpp, hpl, hpr, -, -⟩ := links_at hs.rep hs.nodup
    have hp0 : p ≠ 0 := (rep_plug.1 hs.rep).2.1
    have hDr : D ∉ r.addrs := fun hm => hD (by simp [hm])
    have hDu : ¬ Mem D up := fun hm => hD (by simp [hm])
    have hfuel' : up.depth ≤ fuel := le_of_succ_le_succ hfuel
    rw [retraceDeleteLoop]
    simp only [par, if_neg hp0, hpp, hpl, hpr, if_pos]
    by_cases hpos : 0 < s.balance p
    · simp only [if_pos hpos]
      exact retraceDeleteLoop_replaced (Pending.rotateLeft hs.rep hs.nodup hs.root hbu hp hs.bal hbr hDr
        (by omega)) (by omega) hn hp0 hDu rfl (by simp [before]) (by simp [after])
        fun hk hn => ih hk hn hDu hfuel'
    · simp only [if_neg hpos]
      by_cases hzero : s.balance p = 0
      · simp only [if_pos hzero]
        have hk := hs.setLeft (b := 1) (by omega)
          (show _ = (Shape.node n p r).height D by rw [height_node hp]; omega)
        exact ⟨_, .left p r up, rfl, setBalance_same .., hk.isTree hDu, rfl, rfl, rfl⟩
      · simp only [if_neg hzero]
        have hk := hs.setLeft (b := 0) (by omega)
          (show _ = (Shape.node n p r).height D + 1 by rw [height_node hp]; omega)
        obtain ⟨s', c', hr, hc'⟩ := ih hk (by simp) hDu hfuel'
        exact ⟨s', (Hole.left p r .top).append c', hr, Restored.append hc'
          (setBalance_same ..) rfl hp0 (by simp [before]) (by simp [after])⟩
  | right l p up ih =>
    obtain ⟨hp, ⟨hB, hge, hle⟩, hbl, hbu⟩ := hs.hole
    obtain ⟨fuel, rfl⟩ := exists_eq_add_one.2 (zero_lt_of_lt hfuel)
    obtain ⟨hpp, hpl, hpr, -, hr⟩ := links_at hs.rep hs.nodup
    have hp0 : p ≠ 0 := (rep_plug.1 hs.rep).2.1
    have hDl : D ∉ l.addrs := fun hm => hD (by simp [hm])
    have hDu : ¬ Mem D up := fun hm => hD (by simp [hm])
    have hfuel' : up.depth ≤ fuel := le_of_succ_le_succ hfuel
    rw [retraceDeleteLoop]
    simp only [par, if_neg hp0, hpp, hpl, if_neg (hr hn).2]
    by_cases hneg : s.balance p < 0
    · simp only [if_pos hneg]
      exact retraceDeleteLoop_replaced (Pending.rotateRight hs.rep hs.nodup hs.root hbu hp hbl hs.bal hDl
        (by omega)) (by omega) hn hp0 hDu rfl (by simp [before]) (by simp [after])
        fun hk hn => ih hk hn hDu hfuel'
    · simp only [if_neg hneg]
      by_cases hzero : s.balance p = 0
      · simp only [if_pos hzero]
        have hk := hs.setRight (b := -1) (by omega)
          (show _ = (Shape.node l p n).height D by rw [height_node hp]; omega)
        exact ⟨_, .right l p up, rfl, setBalance_same .., hk.isTree hDu, rfl, rfl, rfl⟩
      · simp only [if_neg hzero]
        have hk := hs.setRight (b := 0) (by omega)
          (show _ = (Shape.node l p n).height D + 1 by rw [height_node hp]; omega)
        obtain ⟨s', c', hr, hc'⟩ := ih hk (by simp) hDu hfuel'
        exact ⟨s', (Hole.right l p .top).append c', hr, Restored.append hc'
          (setBalance_same ..) rfl hp0 (by simp [before]) (by simp [after])⟩

end Dgos.L1.BasicTree
