import Dgos.Core.Avl
import Dgos.L1Data.BasicTree

/-!
# Rotations

A rotation, together with the link from above (`adopt`), turns the shape around without moving
a node in the order of the addresses. The double rotations are two single ones, and a rotation
to the one side is the mirror image of the rotation to the other.

Results:
* `rebalanceRight_spec`, `rebalanceLeft_spec`: the rotation of a node whose one subtree is two
  levels higher than the other balances it.
* `adopt_spec`: the rotated subtree linked from above.
-/
namespace Dgos.L1.BasicTree

open Shape Hole Function Shape

/-! ## Links -/

@[simp] theorem setParent_left (m : Links) (p v : Nat) : (setParent m p v).left = m.left := by
  unfold setParent; split <;> rfl

@[simp] theorem setParent_right (m : Links) (p v : Nat) : (setParent m p v).right = m.right := by
  unfold setParent; split <;> rfl

theorem setParent_parent (m : Links) (p v q : Nat) :
    (setParent m p v).parent q = if p ≠ 0 ∧ q = p then v else m.parent q := by
  unfold setParent
  split
  · simp [*]
  · simp [*, update_apply]

section links

variable {m : Links} {a b c d : Shape} {X Y Z par : Nat}

theorem linkLeft_left (q : Nat) : (linkLeft m X Z).left q = if q = Z then X else m.left q := by
  simp [linkLeft, update_apply]

theorem linkLeft_right (q : Nat) :
    (linkLeft m X Z).right q = if q = X then m.left Z else m.right q := by
  simp [linkLeft, update_apply]

theorem linkLeft_parent (q : Nat) : (linkLeft m X Z).parent q =
    if q = X then Z else if m.left Z ≠ 0 ∧ q = m.left Z then X else m.parent q := by
  simp [linkLeft, setParent_parent, update_apply]

/-- Only `Z` and what hangs below it need to be in place: the links between `X` and `Z` are
written. -/
theorem rep_linkLeft (hX : X ≠ 0) (hlX : m.left X = a.root) (ha : Rep m X a)
    (hz : Rep m par (.node b Z c)) (hnd : (node a X (.node b Z c)).addrs.Nodup) :
    Rep (linkLeft m X Z) par (.node (.node a X b) Z c) := by
  obtain ⟨hZ, hpZ, hlZ, hrZ, hb, hc⟩ := hz
  simp only [nodup_node, mem_node] at hnd
  have hroot : b.root ≠ 0 → b.root ∈ b.addrs := fun h0 => root_mem fun e => h0 (by rw [e]; rfl)
  have hframe : ∀ {t : Shape} {p : Nat}, Rep m p t →
      (∀ q ∈ t.addrs, q ≠ X ∧ q ≠ Z ∧ (b.root ≠ 0 → q ≠ b.root)) → Rep (linkLeft m X Z) p t := by
    intro t p ht hq
    refine ht.congr fun q hm => ⟨?_, ?_, ?_⟩
    · rw [linkLeft_left, if_neg (hq q hm).2.1]
    · rw [linkLeft_right, if_neg (hq q hm).1]
    · rw [linkLeft_parent, if_neg (hq q hm).1, hlZ, if_neg fun hc => (hq q hm).2.2 hc.1 hc.2]
  refine ⟨hZ, ?_, ?_, ?_, ⟨hX, ?_, ?_, ?_, hframe ha (by grind), ?_⟩, hframe hc (by grind)⟩
  · rw [linkLeft_parent, if_neg (by grind), if_neg (by grind), hpZ]
  · rw [linkLeft_left, if_pos rfl]; rfl
  · rw [linkLeft_right, if_neg (by grind), hrZ]
  · rw [linkLeft_parent, if_pos rfl]
  · rw [linkLeft_left, if_neg (by grind), hlX]
  · rw [linkLeft_right, if_pos rfl, hlZ]
  · refine hb.frame (by grind) (fun q hq => ⟨?_, ?_, fun hne => ?_⟩) fun hne => ?_
    · rw [linkLeft_left, if_neg (by grind)]
    · rw [linkLeft_right, if_neg (by grind)]
    · rw [linkLeft_parent, if_neg (by grind), hlZ, if_neg fun hc => hne hc.2]
    · have h0 : b.root ≠ 0 := fun e => hne (hb.root_eq_zero.1 e)
      rw [linkLeft_parent, if_neg (by grind), hlZ, if_pos ⟨h0, rfl⟩]

theorem linkLeft_eqOff (hz : Rep m par (.node b Z c)) :
    m.EqOff (linkLeft m X Z) (X :: (node b Z c).addrs) := by
  obtain ⟨-, -, hlZ, -, -, -⟩ := hz
  intro q hq
  rw [List.mem_cons, addrs_node, List.mem_append] at hq
  have hroot : b.root ≠ 0 → b.root ∈ b.addrs := fun h0 => root_mem fun e => h0 (by rw [e]; rfl)
  rw [linkLeft_left, linkLeft_right, linkLeft_parent, if_neg (by grind), if_neg (by grind),
    if_neg (by grind), if_neg (by grind)]
  exact ⟨rfl, rfl, rfl⟩

theorem linkRight_eq_mirror : linkRight m X Z = (linkLeft m.mirror X Z).mirror := by
  by_cases h : m.right Z = 0 <;> simp [linkRight, linkLeft, setParent, Links.mirror, h]

theorem rep_linkRight (hX : X ≠ 0) (hrX : m.right X = c.root) (hc : Rep m X c)
    (hz : Rep m par (.node a Z b)) (hnd : (node (.node a Z b) X c).addrs.Nodup) :
    Rep (linkRight m X Z) par (.node a Z (.node b X c)) := by
  rw [linkRight_eq_mirror, ← rep_mirror]
  refine rep_linkLeft hX ?_ (rep_mirror.2 hc) (rep_mirror.2 hz) ?_
  · rw [root_mirror]; exact hrX
  · rw [← mirror_node, ← mirror_node, addrs_mirror]
    exact List.nodup_reverse.2 hnd

theorem linkRight_eqOff (hz : Rep m par (.node a Z b)) :
    m.EqOff (linkRight m X Z) (X :: (node a Z b).addrs) := by
  intro q hq
  have hq' : q ∉ X :: (node a Z b).mirror.addrs := by
    rwa [addrs_mirror, List.mem_cons, List.mem_reverse, ← List.mem_cons]
  have h := linkLeft_eqOff (rep_mirror.2 hz) q hq'
  rw [linkRight_eq_mirror]
  exact ⟨h.2.1, h.1, h.2.2⟩

/-- A double rotation is two single ones. -/
theorem linkRightLeft_eq :
    linkRightLeft m X Z = linkLeft (linkRight m Z (m.left Z)) X (m.left Z) := rfl

theorem rep_linkRightLeft (h : Rep m par (.node a X (.node (.node b Y c) Z d)))
    (hnd : (node a X (.node (.node b Y c) Z d)).addrs.Nodup) :
    Rep (linkRightLeft m X Z) Z (.node (.node a X b) Y (.node c Z d)) := by
  obtain ⟨hX, -, hlX, -, ha, hZ, -, hY, hrZ, hy, hd⟩ := h
  replace hY : m.left Z = Y := hY
  have hoff := linkRight_eqOff (X := Z) hy
  have ha' : ∀ q, q = X ∨ q ∈ a.addrs → q ∉ Z :: (node b Y c).addrs := by
    simp only [nodup_node, mem_node, List.mem_cons] at hnd ⊢
    grind
  rw [linkRightLeft_eq, hY]
  refine rep_linkLeft hX ?_ (ha.of_eqOff hoff fun q hq => ha' q (.inr hq)) ?_ (by simpa using hnd)
  · rw [(hoff X (ha' X (.inl rfl))).1, hlX]
  · exact rep_linkRight hZ hrZ hd hy (hnd.sublist (by simp))

theorem linkLeftRight_eq_mirror : linkLeftRight m X Z = (linkRightLeft m.mirror X Z).mirror := by
  have h : linkLeftRight m X Z = linkRight (linkLeft m Z (m.right Z)) X (m.right Z) := rfl
  rw [h, linkRight_eq_mirror, linkRightLeft_eq, linkRight_eq_mirror]
  rfl

theorem linkRightLeft_eqOff (h : Rep m par (.node (.node b Y c) Z d))
    (hnd : (node (.node b Y c) Z d).addrs.Nodup) :
    m.EqOff (linkRightLeft m X Z) (X :: (node (.node b Y c) Z d).addrs) := by
  obtain ⟨hZ, -, hY, hrZ, hy, hd⟩ := h
  rw [linkRightLeft_eq, hY]
  refine ((linkRight_eqOff hy).mono fun q hq => ?_).trans
    ((linkLeft_eqOff (rep_linkRight hZ hrZ hd hy hnd)).mono fun q hq => ?_)
  · simp at hq ⊢; tauto
  · simp at hq ⊢; tauto

end links

/-! ## Rotations -/

variable {α : Type} {s s' s'' : St α} {a b c d z t : Shape} {X Y Z D par : Nat}

/-- The fields that no rotation touches. -/
structure Same (s s' : St α) : Prop where
  item : s'.item = s.item
  first : s'.first = s.first
  last : s'.last = s.last
  size : s'.currentSize = s.currentSize
  live : s'.live = s.live

theorem Same.refl (s : St α) : Same s s := ⟨rfl, rfl, rfl, rfl, rfl⟩

theorem Same.trans (h : Same s s') (h' : Same s' s'') : Same s s'' :=
  ⟨h'.item.trans h.item, h'.first.trans h.first, h'.last.trans h.last, h'.size.trans h.size,
    h'.live.trans h.live⟩

/-- A rotation of `t` to the new root `N`. The subtree `a`, the lighter child of the old root,
stays as it is: `k` is what is around it afterwards. -/
structure Rotated (s s' : St α) (D N : Nat) (t a : Shape) (k : Hole) : Prop where
  same : Same s s'
  treeRoot : s'.root = s.root
  par : k.par = t.root
  root : (k.plug a).root = N
  rep : ∃ par, Rep s'.toLinks par (k.plug a)
  links : s.toLinks.EqOff s'.toLinks t.addrs
  bal : Bal s'.balance D (k.plug a)
  balance : ∀ q ∉ t.addrs, s'.balance q = s.balance q

theorem setBalances_apply (f : Nat → Int) (bX bZ : Int) (q : Nat) :
    setBalances f X Z bX bZ q = if q = Z then bZ else if q = X then bX else f q := by
  simp [setBalances, update_apply]

theorem rotateLeft_spec (h : Rep s.toLinks par (.node a X (.node b Z c)))
    (hnd : (node a X (.node b Z c)).addrs.Nodup) (hX : X ≠ D) (hZ : Z ≠ D)
    (hh : (node b Z c).height D = a.height D + 2) (hba : Bal s.balance D a)
    (hbz : Bal s.balance D (.node b Z c)) (hB : 0 ≤ s.balance Z) :
    Rotated s (rotateLeft s X Z) D Z (.node a X (.node b Z c)) a (.left X b (.left Z c .top)) ∧
      (node (.node a X b) Z c).height D = a.height D + if s.balance Z = 0 then 3 else 2 := by
  obtain ⟨hX0, -, hlX, -, ha, hz⟩ := h
  have hoff := linkLeft_eqOff (X := X) hz
  have hrep := rep_linkLeft hX0 hlX ha hz hnd
  rw [bal_node hZ] at hbz
  obtain ⟨⟨hbZ, -, hle⟩, hbb, hbc⟩ := hbz
  rw [height_node hZ] at hh
  have hbal : ∀ q, (rotateLeft s X Z).balance q =
      if q = Z then (if s.balance Z = 0 then -1 else 0)
      else if q = X then (if s.balance Z = 0 then 1 else 0) else s.balance q := by
    intro q
    simp only [rotateLeft]
    split <;> rw [setBalances_apply]
  have hne : ∀ q, q ∈ a.addrs ∨ q ∈ b.addrs ∨ q ∈ c.addrs → q ≠ X ∧ q ≠ Z := by
    simp only [nodup_node, mem_node] at hnd
    grind
  have hXZ : X ≠ Z := fun e => by simp [e, List.nodup_append] at hnd
  have hkeep : ∀ q, q ∈ a.addrs ∨ q ∈ b.addrs ∨ q ∈ c.addrs →
      (rotateLeft s X Z).balance q = s.balance q := fun q hq => by
    rw [hbal, if_neg (hne q hq).2, if_neg (hne q hq).1]
  refine ⟨⟨⟨rfl, rfl, rfl, rfl, rfl⟩, rfl, rfl, rfl, ⟨_, hrep⟩, ?_, ?_, fun q hq => ?_⟩, ?_⟩
  · exact hoff.mono fun q hq => by simp at hq ⊢; tauto
  · simp only [plug]
    rw [bal_node hZ, bal_node hX, height_node hX, hbal, hbal]
    refine ⟨?_, ⟨?_, hba.congr fun q hq => hkeep q (.inl hq),
      hbb.congr fun q hq => hkeep q (.inr (.inl hq))⟩, hbc.congr fun q hq => hkeep q (.inr (.inr hq))⟩
    · split <;> omega
    · split <;> omega
  · rw [hbal, if_neg fun e => hq (by simp [e]), if_neg fun e => hq (by simp [e])]
  · rw [height_node hZ, height_node hX]
    split <;> omega

theorem rotateRightLeft_balance (s : St α) (X Z q : Nat) : (rotateRightLeft s X Z).balance q =
    if q = s.left Z then 0
    else if q = Z then (if s.balance (s.left Z) < 0 then 1 else 0)
    else if q = X then (if 0 < s.balance (s.left Z) then -1 else 0) else s.balance q := by
  simp only [rotateRightLeft, update_apply]
  split_ifs <;> simp_all [setBalances_apply] <;> omega

theorem rotateRightLeft_spec (h : Rep s.toLinks par (.node a X (.node (.node b Y c) Z d)))
    (hnd : (node a X (.node (.node b Y c) Z d)).addrs.Nodup) (hX : X ≠ D) (hY : Y ≠ D)
    (hZ : Z ≠ D) (hh : (node (.node b Y c) Z d).height D = a.height D + 2)
    (hba : Bal s.balance D a) (hbz : Bal s.balance D (.node (.node b Y c) Z d))
    (hB : s.balance Z < 0) :
    Rotated s (rotateRightLeft s X Z) D Y (.node a X (.node (.node b Y c) Z d)) a
        (.left X b (.left Y (.node c Z d) .top)) ∧
      (node (.node a X b) Y (.node c Z d)).height D = a.height D + 2 := by
  have hrep := rep_linkRightLeft h hnd
  have hoff := linkRightLeft_eqOff (X := X) h.2.2.2.2.2 (hnd.sublist (by simp))
  have hlZ : s.left Z = Y := h.2.2.2.2.2.2.2.1
  rw [bal_node hZ, bal_node hY, height_node hY] at hbz
  obtain ⟨⟨hbZ, hge, -⟩, ⟨⟨hbY, hgeY, hleY⟩, hbb, hbc⟩, hbd⟩ := hbz
  rw [height_node hZ, height_node hY] at hh
  have hne : ∀ q, q ∈ a.addrs ∨ q ∈ b.addrs ∨ q ∈ c.addrs ∨ q ∈ d.addrs → q ≠ X ∧ q ≠ Y ∧ q ≠ Z := by
    simp only [nodup_node, mem_node] at hnd
    grind
  have hXYZ : X ≠ Z ∧ X ≠ Y ∧ Z ≠ Y := by
    simp only [nodup_node, mem_node] at hnd
    grind
  have hbal := rotateRightLeft_balance s X Z
  rw [hlZ] at hbal
  have hkeep : ∀ q, q ∈ a.addrs ∨ q ∈ b.addrs ∨ q ∈ c.addrs ∨ q ∈ d.addrs →
      (rotateRightLeft s X Z).balance q = s.balance q := fun q hq => by
    rw [hbal, if_neg (hne q hq).2.1, if_neg (hne q hq).2.2, if_neg (hne q hq).1]
  refine ⟨⟨⟨rfl, rfl, rfl, rfl, rfl⟩, rfl, rfl, rfl, ⟨_, hrep⟩, ?_, ?_, fun q hq => ?_⟩, ?_⟩
  · exact hoff.mono fun q hq => by simp at hq ⊢; tauto
  · simp only [plug]
    rw [bal_node hY, bal_node hX, bal_node hZ, height_node hX, height_node hZ, hbal, hbal, hbal]
    refine ⟨?_, ⟨?_, hba.congr fun q hq => hkeep q (.inl hq),
      hbb.congr fun q hq => hkeep q (.inr (.inl hq))⟩,
      ⟨?_, hbc.congr fun q hq => hkeep q (.inr (.inr (.inl hq))),
      hbd.congr fun q hq => hkeep q (.inr (.inr (.inr hq)))⟩⟩
    · omega
    · split <;> omega
    · split <;> omega
  · rw [hbal, if_neg fun e => hq (by simp [e]), if_neg fun e => hq (by simp [e]),
      if_neg fun e => hq (by simp [e])]
  · rw [height_node hY, height_node hX, height_node hZ]
    omega

theorem rebalanceRight_spec (h : Rep s.toLinks par (.node a X z))
    (hnd : (node a X z).addrs.Nodup) (hX : X ≠ D) (hD : D ∉ z.addrs)
    (hh : z.height D = a.height D + 2) (hba : Bal s.balance D a) (hbz : Bal s.balance D z) :
    ∃ k, Rotated s (rebalanceRight s X z.root).1 D (rebalanceRight s X z.root).2 (.node a X z) a k ∧
      k.before = [] ∧ k.after = X :: z.addrs ∧
      (k.plug a).height D = a.height D + if s.balance z.root = 0 then 3 else 2 := by
  cases z with
  | nil => rw [height_nil] at hh; omega
  | node b Z c =>
    have hZ : Z ≠ D := fun e => hD (by simp [e])
    by_cases hB : s.balance Z < 0
    case neg =>
      have hr : rebalanceRight s X Z = (rotateLeft s X Z, Z) := if_neg hB
      obtain ⟨hrot, hheight⟩ := rotateLeft_spec h hnd hX hZ hh hba hbz (Int.not_lt.1 hB)
      rw [root_node, hr]
      exact ⟨_, hrot, rfl, by simp [after], hheight⟩
    case pos =>
      cases b with
      | nil =>
        have := (bal_node hZ).1 hbz
        rw [height_nil] at this
        omega
      | node e Y f =>
        have hY : Y ≠ D := fun e => hD (by simp [e])
        have hlZ : s.left Z = Y := h.2.2.2.2.2.2.2.1
        have hr : rebalanceRight s X Z = (rotateRightLeft s X Z, Y) := hlZ ▸ if_pos hB
        obtain ⟨hrot, hheight⟩ := rotateRightLeft_spec h hnd hX hY hZ hh hba hbz hB
        rw [root_node, hr, if_neg (Int.ne_of_lt hB)]
        exact ⟨_, hrot, rfl, by simp [after], hheight⟩

/-- The mirror image, where the two sides of the rotations change places. -/
def St.flip (s : St α) : St α :=
  { s with toLinks := s.toLinks.mirror, balance := fun p => -s.balance p }

theorem eq_flip (h : Same s s') (hroot : s'.root = s.root) (hlinks : s'.toLinks = s.toLinks.mirror)
    (hbal : ∀ q, s'.balance q = -s.balance q) : s' = s.flip := by
  obtain ⟨h1, h2, h3, h4, h5⟩ := h
  cases s'
  simp_all only [St.flip]
  rw [funext hbal]

theorem rotateRight_eq_flip (s : St α) (X Z : Nat) :
    rotateRight s X Z = (rotateLeft s.flip X Z).flip := by
  refine eq_flip ⟨rfl, rfl, rfl, rfl, rfl⟩ rfl linkRight_eq_mirror fun q => ?_
  simp only [rotateRight, rotateLeft, St.flip, Int.neg_eq_zero]
  split <;> simp only [setBalances_apply] <;> split_ifs <;> simp

theorem rotateLeftRight_eq_flip (s : St α) (X Z : Nat) :
    rotateLeftRight s X Z = (rotateRightLeft s.flip X Z).flip := by
  refine eq_flip ⟨rfl, rfl, rfl, rfl, rfl⟩ rfl linkLeftRight_eq_mirror fun q => ?_
  have hY : s.flip.left Z = s.right Z := rfl
  rw [rotateRightLeft_balance, hY]
  simp only [rotateLeftRight, St.flip, update_apply]
  grind [setBalances_apply]

theorem rebalanceLeft_eq_flip (s : St α) (X Z : Nat) : rebalanceLeft s X Z =
    ((rebalanceRight s.flip X Z).1.flip, (rebalanceRight s.flip X Z).2) := by
  have hB : s.flip.balance Z < 0 ↔ 0 < s.balance Z := by simp [St.flip]
  simp only [rebalanceLeft, rebalanceRight, hB, rotateRight_eq_flip, rotateLeftRight_eq_flip]
  split <;> rfl

theorem rebalanceLeft_spec (h : Rep s.toLinks par (.node z X a))
    (hnd : (node z X a).addrs.Nodup) (hX : X ≠ D) (hD : D ∉ z.addrs)
    (hh : z.height D = a.height D + 2) (hba : Bal s.balance D a) (hbz : Bal s.balance D z) :
    ∃ k, Rotated s (rebalanceLeft s X z.root).1 D (rebalanceLeft s X z.root).2 (.node z X a) a k ∧
      k.before = z.addrs ++ [X] ∧ k.after = [] ∧
      (k.plug a).height D = a.height D + if s.balance z.root = 0 then 3 else 2 := by
  have haddrs : (node a.mirror X z.mirror).addrs = (node z X a).addrs.reverse := by
    rw [← mirror_node, addrs_mirror]
  have hmem : ∀ q ∉ (node z X a).addrs, q ∉ (node a.mirror X z.mirror).addrs := by
    intro q hq
    rwa [haddrs, List.mem_reverse]
  obtain ⟨k, hk, hbefore, hafter, hheight⟩ := rebalanceRight_spec (s := s.flip)
    (rep_mirror.2 h) (haddrs ▸ List.nodup_reverse.2 hnd) hX (by simpa using hD)
    (by rw [height_mirror, height_mirror, hh]) hba.mirror hbz.mirror
  rw [root_mirror] at hk
  have hplug : k.mirror.plug a = (k.plug a.mirror).mirror := by
    rw [← plug_mirror, mirror_mirror]
  rw [rebalanceLeft_eq_flip]
  refine ⟨k.mirror, ⟨⟨hk.same.item, hk.same.first, hk.same.last, hk.same.size, hk.same.live⟩,
    hk.treeRoot, ?_, ?_, ?_, fun q hq => ?_, ?_, fun q hq => ?_⟩, ?_, ?_, ?_⟩
  · rw [par_mirror, hk.par]; rfl
  · rw [hplug, root_mirror, hk.root]
  · obtain ⟨p, hp⟩ := hk.rep
    exact ⟨p, hplug ▸ rep_mirror.2 hp⟩
  · have := hk.links q (hmem q hq)
    exact ⟨this.2.1, this.1, this.2.2⟩
  · rw [hplug]; exact hk.bal.mirror
  · exact (congrArg Neg.neg (hk.balance q (hmem q hq))).trans (Int.neg_neg _)
  · rw [before_mirror, hafter]; simp
  · rw [after_mirror, hbefore]; simp
  · rw [hplug, height_mirror, hheight, height_mirror]
    simp [St.flip]

/-! ## The link from above -/

/-- The links from the root on are the shape `t`, with right balances if `D` is not counted. -/
structure IsTree (s : St α) (D : Nat) (t : Shape) : Prop where
  rep : Rep s.toLinks 0 t
  nodup : t.addrs.Nodup
  root : s.root = t.root
  bal : Bal s.balance D t

theorem adopt_same (s : St α) (G X N : Nat) : Same s (adopt s G X N) := by
  unfold adopt
  split <;> exact ⟨rfl, rfl, rfl, rfl, rfl⟩

theorem adopt_balance (s : St α) (G X N : Nat) : (adopt s G X N).balance = s.balance := by
  unfold adopt
  split <;> rfl

theorem adopt_rep {c : Hole} (hc : HoleRep s.toLinks c X) (hX : X ≠ 0)
    (hmem : ¬ Mem X c) (hroot : s.root = c.root X) (ht : Rep s.toLinks par t) (ht0 : t ≠ .nil)
    (hnd : (c.plug t).addrs.Nodup) : Rep (adopt s c.par X t.root).toLinks 0 (c.plug t) ∧
      (adopt s c.par X t.root).root = (c.plug t).root := by
  by_cases hne : c = .top
  · subst hne
    refine ⟨ht.frame hnd (fun p _ => ⟨rfl, rfl, fun hr => ?_⟩) fun _ => ?_, rfl⟩
    · exact update_of_ne hr ..
    · exact update_self ..
  · have h0 := hc.par_ne_zero hne
    simp only [adopt, if_pos h0]
    refine ⟨hc.adopt hne hX hmem ht ht0 hnd, ?_⟩
    rw [root_plug, hroot]
    cases c with
    | top => exact absurd rfl hne
    | left p r up => rfl
    | right l p up => rfl

/-- The tree while its balances are being restored: around the hole `c` they are still those
of a subtree of the height `h`. -/
structure Pending (s : St α) (D h : Nat) (c : Hole) (t : Shape) : Prop where
  rep : Rep s.toLinks 0 (c.plug t)
  nodup : (c.plug t).addrs.Nodup
  root : s.root = (c.plug t).root
  bal : Bal s.balance D t
  hole : HoleBal s.balance D c h

theorem Pending.isTree {c : Hole} (h : Pending s D (t.height D) c t)
    (hD : ¬ Mem D c) : IsTree s D (c.plug t) :=
  ⟨h.rep, h.nodup, h.root, (bal_plug hD).2 ⟨h.bal, h.hole⟩⟩

theorem adopt_spec {c k : Hole} {h N : Nat} (hs : Rep s.toLinks 0 (c.plug t))
    (hnd : (c.plug t).addrs.Nodup) (hroot : s.root = (c.plug t).root) (ht : t ≠ .nil)
    (hc : HoleBal s.balance D c h) (hk : Rotated s s' D N t a k)
    (haddrs : (k.plug a).addrs = t.addrs) : Same s (adopt s' c.par t.root N) ∧
      Pending (adopt s' c.par t.root N) D h c (k.plug a) := by
  obtain ⟨hrt, hrc⟩ := rep_plug.1 hs
  obtain ⟨hndt, hndc, hdisj⟩ := nodup_plug.1 hnd
  obtain ⟨p, hp⟩ := hk.rep
  have ht0 : k.plug a ≠ .nil := fun e => ht (by
    rw [e] at haddrs
    cases t with
    | nil => rfl
    | node l p r => simp at haddrs)
  have hnd' : (c.plug (k.plug a)).addrs.Nodup := by rwa [addrs_plug, haddrs, ← addrs_plug]
  have hroot' : s'.root = c.root t.root := by rw [hk.treeRoot, hroot, root_plug]
  obtain ⟨hr1, hr2⟩ := adopt_rep (hrc.of_eqOff hk.links hdisj) (hrt.ne_zero (root_mem ht))
    (hdisj _ (root_mem ht)) hroot' hp ht0 hnd'
  rw [hk.root] at hr1 hr2
  refine ⟨hk.same.trans (adopt_same ..), hr1, hnd', hr2, ?_, ?_⟩
  · rw [adopt_balance]; exact hk.bal
  · rw [adopt_balance]; exact hc.congr fun q hq => hk.balance q fun hm => hdisj q hm hq

end Dgos.L1.BasicTree
