import Mathlib

/-!
# Binary trees with parent links in memory

`Links` are the three link fields of every address, one map a field; address 0 is null.
`Shape` is a tree of addresses, and `Rep m par t` says that the links of `m` describe the
shape `t` whose root has the parent `par`. A `Hole` is a shape with a subtree taken out, from
the hole upwards: `plug c t` puts one back. A program that changes a few links in the middle
of a tree is proved by splitting the shape at the place (`rep_plug`), changing the subtree,
and letting the hole's parent point at the new root (`HoleRep.setLeft`,
`HoleRep.setRight`).
-/
namespace Dgos

open Function List

structure Links where
  left : Nat → Nat
  right : Nat → Nat
  parent : Nat → Nat

/-- The links differ at most at the addresses of `l`. -/
def Links.EqOff (m m' : Links) (l : List Nat) : Prop :=
  ∀ q ∉ l, m'.left q = m.left q ∧ m'.right q = m.right q ∧ m'.parent q = m.parent q

def Links.EqAt (m m' : Links) (q : Nat) : Prop :=
  m'.left q = m.left q ∧ m'.right q = m.right q ∧ m'.parent q = m.parent q

theorem Links.EqOff.trans {m m' m'' : Links} {l : List Nat} (h : EqOff m m' l)
    (h' : EqOff m' m'' l) : EqOff m m'' l := fun q hq =>
  ⟨(h' q hq).1.trans (h q hq).1, (h' q hq).2.1.trans (h q hq).2.1, (h' q hq).2.2.trans (h q hq).2.2⟩

theorem Links.EqOff.mono {m m' : Links} {l l' : List Nat} (h : EqOff m m' l)
    (hl : ∀ q ∈ l, q ∈ l') : EqOff m m' l' := fun q hq => h q fun hm => hq (hl q hm)

inductive Shape where
  | nil
  | node (l : Shape) (p : Nat) (r : Shape)
  deriving DecidableEq, Repr

variable {f : Nat → Nat} {s : List Nat}

namespace Shape

variable {m m' : Links} {t t' l r : Shape} {p q par par' : Nat}

def root : Shape → Nat
  | nil => 0
  | node _ p _ => p

/-- The addresses in order. -/
def addrs : Shape → List Nat
  | nil => []
  | node l p r => l.addrs ++ p :: r.addrs

@[simp] theorem root_nil : nil.root = 0 := rfl

@[simp] theorem root_node : (node l p r).root = p := rfl

@[simp] theorem addrs_nil : nil.addrs = [] := rfl

@[simp] theorem addrs_node : (node l p r).addrs = l.addrs ++ p :: r.addrs := rfl

theorem mem_node : q ∈ (node l p r).addrs ↔ q ∈ l.addrs ∨ q = p ∨ q ∈ r.addrs := by simp

theorem nodup_node : (node l p r).addrs.Nodup ↔ l.addrs.Nodup ∧ r.addrs.Nodup ∧ p ∉ l.addrs ∧
    p ∉ r.addrs ∧ ∀ q ∈ l.addrs, q ∉ r.addrs := by
  rw [addrs_node, nodup_append, nodup_cons]
  grind

@[simp] theorem addrs_eq_nil : t.addrs = [] ↔ t = nil := by cases t <;> simp

theorem root_mem (h : t ≠ nil) : t.root ∈ t.addrs := by
  cases t with
  | nil => exact absurd rfl h
  | node l p r => simp

/-! ## Representation -/

def Rep (m : Links) : Nat → Shape → Prop
  | _, nil => True
  | par, node l p r =>
    p ≠ 0 ∧ m.parent p = par ∧ m.left p = l.root ∧ m.right p = r.root ∧ Rep m p l ∧ Rep m p r

@[simp] theorem rep_nil : Rep m par nil := trivial

theorem rep_node : Rep m par (node l p r) ↔ p ≠ 0 ∧ m.parent p = par ∧ m.left p = l.root ∧
    m.right p = r.root ∧ Rep m p l ∧ Rep m p r := Iff.rfl

theorem Rep.ne_zero (h : Rep m par t) (hp : p ∈ t.addrs) : p ≠ 0 := by
  induction t generalizing par with
  | nil => cases hp
  | node l q r ihl ihr =>
    obtain ⟨hq, -, -, -, hl, hr⟩ := h
    rcases mem_node.1 hp with hp | rfl | hp
    · exact ihl hl hp
    · exact hq
    · exact ihr hr hp

theorem Rep.root_eq_zero (h : Rep m par t) : t.root = 0 ↔ t = nil := by
  cases t with
  | nil => simp
  | node l p r => exact ⟨fun e => absurd e h.1, fun e => by cases e⟩

theorem Rep.root_ne (h : Rep m par l) (hd : ∀ q ∈ l.addrs, q ∉ r.addrs) (hl : l ≠ nil) :
    l.root ≠ r.root := by
  intro e
  by_cases hr : r = nil
  · rw [hr] at e; exact h.ne_zero (root_mem hl) e
  · exact hd _ (root_mem hl) (e ▸ root_mem hr)

theorem Rep.parent_root (h : Rep m par t) (ht : t ≠ nil) : m.parent t.root = par := by
  cases t with
  | nil => exact absurd rfl ht
  | node l p r => exact h.2.1

def map (f : Nat → Nat) : Shape → Shape
  | nil => nil
  | node l p r => node (l.map f) (f p) (r.map f)

@[simp] theorem addrs_map (f : Nat → Nat) (t : Shape) : (t.map f).addrs = t.addrs.map f := by
  induction t with
  | nil => rfl
  | node l p r ihl ihr => simp [map, ihl, ihr]

theorem root_map (hf : f 0 = 0) (t : Shape) : (t.map f).root = f t.root := by
  cases t with
  | nil => exact hf.symm
  | node l p r => rfl

/-- Links that lead where the renamed links led represent the renamed shape. -/
theorem Rep.map (hf : f 0 = 0) (h : Rep m par t) (hne : ∀ p ∈ t.addrs, f p ≠ 0)
    (he : ∀ p ∈ t.addrs, m'.left (f p) = f (m.left p) ∧ m'.right (f p) = f (m.right p) ∧
      m'.parent (f p) = f (m.parent p)) : Rep m' (f par) (t.map f) := by
  induction t generalizing par with
  | nil => trivial
  | node l q r ihl ihr =>
    obtain ⟨-, hpar, hql, hqr, hl', hr'⟩ := h
    obtain ⟨hl, hr, hp⟩ := he q (by simp)
    refine ⟨hne q (by simp), by rw [hp, hpar], by rw [hl, hql, root_map hf],
      by rw [hr, hqr, root_map hf], ?_, ?_⟩
    · exact ihl hl' (fun p h => hne p (by simp [h])) fun p h => he p (by simp [h])
    · exact ihr hr' (fun p h => hne p (by simp [h])) fun p h => he p (by simp [h])

theorem map_of_fixed (h : ∀ p ∈ t.addrs, f p = p) : t.map f = t := by
  induction t with
  | nil => rfl
  | node l p r ihl ihr =>
    rw [map, ihl fun q hq => h q (by simp [hq]), ihr fun q hq => h q (by simp [hq]), h p (by simp)]

/-- The links of the addresses of a shape are all that matters. -/
theorem Rep.congr (h : Rep m par t) (he : ∀ p ∈ t.addrs, m.EqAt m' p) : Rep m' par t := by
  have h' := h.map (f := id) rfl (fun _ => h.ne_zero) he
  rwa [map_of_fixed (f := id) fun _ _ => rfl] at h'

/-- The links outside a shape do not matter, nor does the parent link of its root. -/
theorem Rep.frame (h : Rep m par t) (hnd : t.addrs.Nodup)
    (he : ∀ p ∈ t.addrs, m'.left p = m.left p ∧ m'.right p = m.right p ∧
      (p ≠ t.root → m'.parent p = m.parent p))
    (hroot : t ≠ nil → m'.parent t.root = par') : Rep m' par' t := by
  cases t with
  | nil => trivial
  | node l q r =>
    obtain ⟨hq, -, hql, hqr, hl', hr'⟩ := h
    obtain ⟨-, -, hql', hqr', -⟩ := nodup_node.1 hnd
    obtain ⟨hl, hr, -⟩ := he q (by simp)
    refine ⟨hq, hroot (by simp), hl.trans hql, hr.trans hqr, hl'.congr fun p hp => ?_,
      hr'.congr fun p hp => ?_⟩
    · obtain ⟨h1, h2, h3⟩ := he p (by simp [hp])
      exact ⟨h1, h2, h3 (ne_of_mem_of_not_mem hp hql')⟩
    · obtain ⟨h1, h2, h3⟩ := he p (by simp [hp])
      exact ⟨h1, h2, h3 (ne_of_mem_of_not_mem hp hqr')⟩

theorem Rep.of_eqOff (h : Rep m par t) (he : m.EqOff m' s)
    (hd : ∀ p ∈ t.addrs, p ∉ s) : Rep m' par t :=
  h.congr fun p hp => he p (hd p hp)

/-! ## Holes -/

end Shape

open Shape

inductive Hole where
  | top
  /-- the hole is the left child of `p` -/
  | left (p : Nat) (r : Shape) (up : Hole)
  /-- the hole is the right child of `p` -/
  | right (l : Shape) (p : Nat) (up : Hole)

namespace Hole

variable {m m' : Links} {t t' : Shape} {c up : Hole} {p q h h' : Nat}

def plug : Hole → Shape → Shape
  | top, t => t
  | left p r up, t => up.plug (.node t p r)
  | right l p up, t => up.plug (.node l p t)

/-- The parent of the hole. -/
def par : Hole → Nat
  | top => 0
  | left p _ _ => p
  | right _ p _ => p

/-- The root, when the root of the subtree is `h`. -/
def root : Hole → Nat → Nat
  | top, h => h
  | left p _ up, _ => up.root p
  | right _ p up, _ => up.root p

/-- The addresses in order before the hole. -/
def before : Hole → List Nat
  | top => []
  | left _ _ up => up.before
  | right l p up => up.before ++ (l.addrs ++ [p])

/-- The addresses in order behind the hole. -/
def after : Hole → List Nat
  | top => []
  | left p r up => p :: r.addrs ++ up.after
  | right _ _ up => up.after

def depth : Hole → Nat
  | top => 0
  | left _ _ up => up.depth + 1
  | right _ _ up => up.depth + 1

theorem addrs_plug (c : Hole) (t : Shape) : (c.plug t).addrs = c.before ++ t.addrs ++ c.after := by
  induction c generalizing t with
  | top => simp [plug, before, after]
  | left p r up ih => simp [plug, before, after, ih]
  | right l p up ih => simp [plug, before, after, ih]

theorem root_plug (c : Hole) (t : Shape) : (c.plug t).root = c.root t.root := by
  induction c generalizing t with
  | top => rfl
  | left p r up ih => exact ih _
  | right l p up ih => exact ih _

theorem depth_le (c : Hole) : c.depth ≤ c.before.length + c.after.length := by
  induction c with
  | top => simp [depth]
  | left p r up ih => simp [depth, before, after]; omega
  | right l p up ih => simp [depth, before, after]; omega

/-- The links around the hole, whose subtree has the root `h`. -/
def HoleRep (m : Links) : Hole → Nat → Prop
  | top, _ => True
  | left p r up, h => p ≠ 0 ∧ m.parent p = up.par ∧ m.left p = h ∧ m.right p = r.root ∧
    Rep m p r ∧ HoleRep m up p
  | right l p up, h => p ≠ 0 ∧ m.parent p = up.par ∧ m.left p = l.root ∧ m.right p = h ∧
    Rep m p l ∧ HoleRep m up p

theorem rep_plug : Rep m 0 (c.plug t) ↔ Rep m c.par t ∧ HoleRep m c t.root := by
  induction c generalizing t with
  | top => simp [plug, par, HoleRep]
  | left p r up ih =>
    rw [plug, ih]
    exact ⟨fun ⟨⟨h1, h2, h3, h4, h5, h6⟩, h7⟩ => ⟨h5, h1, h2, h3, h4, h6, h7⟩,
      fun ⟨h5, h1, h2, h3, h4, h6, h7⟩ => ⟨⟨h1, h2, h3, h4, h5, h6⟩, h7⟩⟩
  | right l p up ih =>
    rw [plug, ih]
    exact ⟨fun ⟨⟨h1, h2, h3, h4, h5, h6⟩, h7⟩ => ⟨h6, h1, h2, h3, h4, h5, h7⟩,
      fun ⟨h6, h1, h2, h3, h4, h5, h7⟩ => ⟨⟨h1, h2, h3, h4, h5, h6⟩, h7⟩⟩

def Mem (p : Nat) (c : Hole) : Prop := p ∈ c.before ∨ p ∈ c.after

@[simp] theorem mem_left {r : Shape} : Mem q (left p r up) ↔ q = p ∨ q ∈ r.addrs ∨ Mem q up := by
  simp [Mem, before, after]; tauto

@[simp] theorem mem_right {l : Shape} : Mem q (right l p up) ↔ q ∈ l.addrs ∨ q = p ∨ Mem q up := by
  simp [Mem, before, after]; tauto

theorem HoleRep.congr (hc : HoleRep m c h) (he : ∀ p, Mem p c → m.EqAt m' p) : HoleRep m' c h := by
  induction c generalizing h with
  | top => trivial
  | left p r up ih =>
    obtain ⟨h0, h1, h2, h3, h4, h5⟩ := hc
    obtain ⟨hl, hr, hp⟩ := he p (by simp)
    exact ⟨h0, hp.trans h1, hl.trans h2, hr.trans h3, h4.congr fun q hq => he q (by simp [hq]),
      ih h5 fun q hq => he q (by simp [hq])⟩
  | right l p up ih =>
    obtain ⟨h0, h1, h2, h3, h4, h5⟩ := hc
    obtain ⟨hl, hr, hp⟩ := he p (by simp)
    exact ⟨h0, hp.trans h1, hl.trans h2, hr.trans h3, h4.congr fun q hq => he q (by simp [hq]),
      ih h5 fun q hq => he q (by simp [hq])⟩

theorem HoleRep.of_eqOff (hc : HoleRep m c h) (he : m.EqOff m' s)
    (hd : ∀ p ∈ s, ¬ Mem p c) : HoleRep m' c h :=
  hc.congr fun p hp => he p fun hm => hd p hm hp

/-! ## A new subtree in the hole -/

/-- No address twice around the hole. -/
def NodupAround (c : Hole) : Prop := (c.before ++ c.after).Nodup

theorem nodup_plug : (c.plug t).addrs.Nodup ↔
    t.addrs.Nodup ∧ c.NodupAround ∧ ∀ p ∈ t.addrs, ¬ Mem p c := by
  have hperm : (c.plug t).addrs.Perm (t.addrs ++ (c.before ++ c.after)) := by
    rw [addrs_plug, ← append_assoc]
    exact Perm.append_right _ perm_append_comm
  rw [hperm.nodup_iff, nodup_append]
  refine and_congr Iff.rfl (and_congr Iff.rfl ⟨fun h p hp hm => ?_, fun h p hp q hq e => ?_⟩)
  · exact h p hp p (mem_append.2 hm) rfl
  · exact h p hp (e ▸ mem_append.1 hq)

theorem NodupAround.left {r : Shape} (h : NodupAround (left p r up)) :
    p ∉ r.addrs ∧ ¬ Mem p up ∧ NodupAround up := by
  have hnd : (up.plug (.node .nil p r)).addrs.Nodup :=
    (nodup_plug (c := .left p r up)).2 ⟨nodup_nil, h, nofun⟩
  obtain ⟨h1, h3, h2⟩ := nodup_plug.1 hnd
  exact ⟨(nodup_cons.1 h1).1, h2 p (by simp), h3⟩

theorem NodupAround.right {l : Shape} (h : NodupAround (right l p up)) :
    p ∉ l.addrs ∧ ¬ Mem p up ∧ NodupAround up := by
  have hnd : (up.plug (.node l p .nil)).addrs.Nodup :=
    (nodup_plug (c := .right l p up)).2 ⟨nodup_nil, h, nofun⟩
  obtain ⟨h1, h3, h2⟩ := nodup_plug.1 hnd
  exact ⟨fun hp => (nodup_append.1 h1).2.2 p hp p (by simp) rfl, h2 p (by simp), h3⟩

theorem HoleRep.setLeft {r : Shape} (hc : HoleRep m (.left p r up) h)
    (hnd : NodupAround (.left p r up)) (n : Nat) :
    HoleRep { m with left := update m.left p n } (.left p r up) n := by
  obtain ⟨h0, h1, -, h3, h4, h5⟩ := hc
  obtain ⟨hpr, hpu, -⟩ := hnd.left
  refine ⟨h0, h1, update_self .., h3, ?_, ?_⟩
  · exact h4.congr fun q hq => ⟨update_of_ne (ne_of_mem_of_not_mem hq hpr) .., rfl, rfl⟩
  · exact h5.congr fun q hq => ⟨update_of_ne (fun e => hpu (by rwa [← e])) .., rfl, rfl⟩

theorem HoleRep.setRight {l : Shape} (hc : HoleRep m (.right l p up) h)
    (hnd : NodupAround (.right l p up)) (n : Nat) :
    HoleRep { m with right := update m.right p n } (.right l p up) n := by
  obtain ⟨h0, h1, h2, -, h4, h5⟩ := hc
  obtain ⟨hpl, hpu, -⟩ := hnd.right
  refine ⟨h0, h1, h2, update_self .., ?_, ?_⟩
  · exact h4.congr fun q hq => ⟨rfl, update_of_ne (ne_of_mem_of_not_mem hq hpl) .., rfl⟩
  · exact h5.congr fun q hq => ⟨rfl, update_of_ne (fun e => hpu (by rwa [← e])) .., rfl⟩

end Hole

/-- The child link of `g` that points at `x` is made to point at `n`. -/
def Links.setChild (m : Links) (g x n : Nat) : Links :=
  if x = m.left g then { m with left := update m.left g n }
  else { m with right := update m.right g n }

namespace Hole

variable {m m' : Links} {t t' : Shape} {c : Hole} {p q h h' x g n : Nat}

@[simp] theorem setChild_parent (m : Links) (g x n : Nat) : (m.setChild g x n).parent = m.parent := by
  unfold Links.setChild; split <;> rfl

theorem setChild_left_of_ne (hq : q ≠ g) : (m.setChild g x n).left q = m.left q := by
  unfold Links.setChild
  split
  · exact update_of_ne hq ..
  · rfl

theorem setChild_right_of_ne (hq : q ≠ g) : (m.setChild g x n).right q = m.right q := by
  unfold Links.setChild
  split
  · rfl
  · exact update_of_ne hq ..

theorem HoleRep.setChild (hc : HoleRep m c x) (hne : c ≠ top) (hnd : c.NodupAround)
    (hx : x ≠ 0) (hmem : ¬ Mem x c) (n : Nat) : HoleRep (m.setChild c.par x n) c n := by
  cases c with
  | top => exact absurd rfl hne
  | left p r up =>
    have : m.setChild (left p r up).par x n = { m with left := update m.left p n } :=
      if_pos hc.2.2.1.symm
    rw [this]; exact hc.setLeft hnd n
  | right l p up =>
    have hxl : x ≠ m.left p := by
      rw [hc.2.2.1]
      intro e
      by_cases hl : l = .nil
      · rw [hl] at e; exact hx e
      · exact hmem (by simp [e ▸ root_mem hl])
    have : m.setChild (right l p up).par x n = { m with right := update m.right p n } :=
      if_neg hxl
    rw [this]; exact hc.setRight hnd n

/-! ## The links of one address -/

/-- The hole of `c` inside the hole of `d`. -/
def append : Hole → Hole → Hole
  | top, d => d
  | left p r up, d => left p r (up.append d)
  | right l p up, d => right l p (up.append d)

theorem plug_append (c d : Hole) (t : Shape) : (c.append d).plug t = d.plug (c.plug t) := by
  induction c generalizing t with
  | top => rfl
  | left p r up ih => exact ih _
  | right l p up ih => exact ih _

theorem before_append (c d : Hole) : (c.append d).before = d.before ++ c.before := by
  induction c with
  | top => simp [append, before]
  | left p r up ih => exact ih
  | right l p up ih => simp [append, before, ih]

theorem after_append (c d : Hole) : (c.append d).after = c.after ++ d.after := by
  induction c with
  | top => rfl
  | left p r up ih => simp [append, after, ih]
  | right l p up ih => exact ih

theorem par_append (d : Hole) (hc : c.par ≠ 0) : (c.append d).par = c.par := by
  cases c with
  | top => exact absurd rfl hc
  | left p r up => rfl
  | right l p up => rfl

theorem exists_plug (hp : p ∈ t.addrs) : ∃ c l r, t = plug c (.node l p r) := by
  induction t with
  | nil => cases hp
  | node l q r ihl ihr =>
    rcases mem_node.1 hp with hp | rfl | hp
    · obtain ⟨c, l', r', rfl⟩ := ihl hp
      exact ⟨c.append (.left q r .top), l', r', by rw [plug_append]; rfl⟩
    · exact ⟨.top, l, r, rfl⟩
    · obtain ⟨c, l', r', rfl⟩ := ihr hp
      exact ⟨c.append (.right l q .top), l', r', by rw [plug_append]; rfl⟩

theorem par_mem (hne : c ≠ top) : Mem c.par c := by
  cases c with
  | top => exact absurd rfl hne
  | left p r up => simp [par]
  | right l p up => simp [par]

theorem HoleRep.par_ne_zero (hc : HoleRep m c h) (hne : c ≠ top) : c.par ≠ 0 := by
  cases c with
  | top => exact absurd rfl hne
  | left p r up => exact hc.1
  | right l p up => exact hc.1

theorem HoleRep.par_eq_zero (hc : HoleRep m c h) : c.par = 0 ↔ c = top :=
  ⟨fun e => by_contra fun hne => hc.par_ne_zero hne e, fun e => by rw [e]; rfl⟩

theorem HoleRep.child (hc : HoleRep m c h) (hne : c ≠ top) : m.left c.par = h ∨ m.right c.par = h := by
  cases c with
  | top => exact absurd rfl hne
  | left p r up => exact .inl hc.2.2.1
  | right l p up => exact .inr hc.2.2.2.1

/-- A subtree whose root is at the hole but not yet linked there is linked. -/
theorem HoleRep.adopt {par : Nat} (hc : HoleRep m c x) (hne : c ≠ top) (hx : x ≠ 0)
    (hmem : ¬ Mem x c) (ht : Rep m par t) (ht0 : t ≠ .nil) (hnd : (c.plug t).addrs.Nodup) :
    Rep (Links.setChild { m with parent := update m.parent t.root c.par } c.par x t.root) 0
      (c.plug t) := by
  obtain ⟨hndt, hndc, hdisj⟩ := nodup_plug.1 hnd
  have hpar : ∀ p ∈ t.addrs, p ≠ c.par := fun p hp e => hdisj p hp (e ▸ par_mem hne)
  have hc' : HoleRep { m with parent := update m.parent t.root c.par } c x :=
    hc.congr fun p hp => ⟨rfl, rfl,
      update_of_ne (fun e : p = t.root => hdisj _ (root_mem ht0) (e ▸ hp)) ..⟩
  refine rep_plug.2 ⟨ht.frame hndt (fun p hp => ⟨?_, ?_, fun hr => ?_⟩) fun _ => ?_,
    hc'.setChild hne hndc hx hmem t.root⟩
  · exact setChild_left_of_ne (hpar p hp)
  · exact setChild_right_of_ne (hpar p hp)
  · rw [setChild_parent]; exact update_of_ne hr ..
  · rw [setChild_parent]; exact update_self ..

end Hole

namespace Shape

variable {m m' : Links} {t : Shape} {q : Nat}

open Hole

theorem mem_plug {c : Hole} {t : Shape} {p : Nat} :
    p ∈ (c.plug t).addrs ↔ p ∈ t.addrs ∨ Hole.Mem p c := by
  rw [addrs_plug, mem_append, mem_append, Hole.Mem]
  tauto

/-- A child link leads to an address whose parent link leads back. -/
theorem Rep.child {x : Nat} (h : Rep m 0 t) (hq : q ∈ t.addrs) (h0 : x ≠ 0)
    (hx : m.left q = x ∨ m.right q = x) : x ∈ t.addrs ∧ m.parent x = q := by
  obtain ⟨c, l, r, rfl⟩ := exists_plug hq
  obtain ⟨⟨-, -, hl, hr, hrl, hrr⟩, -⟩ := rep_plug.1 h
  have hne : ∀ z : Shape, z.root = x → z ≠ nil := fun z hz e => h0 (by rw [← hz, e]; rfl)
  rw [hl, hr] at hx
  rcases hx with rfl | rfl
  · exact ⟨mem_plug.2 (.inl (by simp [root_mem (hne l rfl)])), hrl.parent_root (hne l rfl)⟩
  · exact ⟨mem_plug.2 (.inl (by simp [root_mem (hne r rfl)])), hrr.parent_root (hne r rfl)⟩

theorem Rep.left_ne_right (h : Rep m 0 t) (hnd : t.addrs.Nodup) (hq : q ∈ t.addrs)
    (h0 : m.left q ≠ 0) : m.left q ≠ m.right q := by
  obtain ⟨c, l, r, rfl⟩ := exists_plug hq
  obtain ⟨⟨-, -, hl, hr, hrep, -⟩, -⟩ := rep_plug.1 h
  obtain ⟨-, -, -, -, hd⟩ := nodup_node.1 (nodup_plug.1 hnd).1
  rw [hl] at h0
  rw [hl, hr]
  exact hrep.root_ne hd fun e => h0 (by rw [e]; rfl)

theorem Rep.parent_cases (h : Rep m 0 t) (hq : q ∈ t.addrs) :
    (q = t.root ∧ m.parent q = 0) ∨ (m.parent q ≠ 0 ∧ m.parent q ∈ t.addrs ∧
      (m.left (m.parent q) = q ∨ m.right (m.parent q) = q)) := by
  obtain ⟨c, l, r, rfl⟩ := exists_plug hq
  obtain ⟨⟨-, hpar, -⟩, hc⟩ := rep_plug.1 h
  rw [hpar]
  by_cases hne : c = .top
  · subst hne; exact .inl ⟨rfl, rfl⟩
  · exact .inr ⟨hc.par_ne_zero hne, mem_plug.2 (.inr (par_mem hne)), hc.child hne⟩

/-- A renaming that fixes what is around a hole. -/
theorem map_plug {c : Hole} (h : ∀ p, Hole.Mem p c → f p = p) :
    (c.plug t).map f = c.plug (t.map f) := by
  induction c generalizing t with
  | top => rfl
  | left p r up ih =>
    rw [plug, ih fun q hq => h q (by simp [hq]), map,
      map_of_fixed (t := r) fun q hq => h q (by simp [hq]), h p (by simp)]
    rfl
  | right l p up ih =>
    rw [plug, ih fun q hq => h q (by simp [hq]), map,
      map_of_fixed fun q hq => h q (by simp [hq]), h p (by simp)]
    rfl

/-! ## Mirror images -/

end Shape

def Links.mirror (m : Links) : Links := ⟨m.right, m.left, m.parent⟩

namespace Shape

variable {m : Links} {t l r : Shape} {p par : Nat}

def mirror : Shape → Shape
  | nil => nil
  | node l p r => node r.mirror p l.mirror

@[simp] theorem mirror_node : (node l p r).mirror = node r.mirror p l.mirror := rfl

@[simp] theorem mirror_mirror (t : Shape) : t.mirror.mirror = t := by
  induction t with
  | nil => rfl
  | node l p r ihl ihr => simp [ihl, ihr]

@[simp] theorem root_mirror (t : Shape) : t.mirror.root = t.root := by
  cases t <;> rfl

@[simp] theorem addrs_mirror (t : Shape) : t.mirror.addrs = t.addrs.reverse := by
  induction t with
  | nil => rfl
  | node l p r ihl ihr => simp [ihl, ihr]

theorem rep_mirror : Rep m.mirror par t.mirror ↔ Rep m par t := by
  induction t generalizing par with
  | nil => exact Iff.rfl
  | node l p r ihl ihr =>
    rw [mirror_node, rep_node, ihl, ihr, root_mirror, root_mirror]
    exact ⟨fun ⟨h1, h2, h3, h4, h5, h6⟩ => ⟨h1, h2, h4, h3, h6, h5⟩,
      fun ⟨h1, h2, h3, h4, h5, h6⟩ => ⟨h1, h2, h4, h3, h6, h5⟩⟩

end Shape

namespace Hole

def mirror : Hole → Hole
  | top => top
  | left p r up => right r.mirror p up.mirror
  | right l p up => left p l.mirror up.mirror

@[simp] theorem par_mirror (c : Hole) : c.mirror.par = c.par := by cases c <;> rfl

@[simp] theorem before_mirror (c : Hole) : c.mirror.before = c.after.reverse := by
  induction c with
  | top => rfl
  | left p r up ih => simp [mirror, before, after, ih]
  | right l p up ih => simpa [mirror, before, after] using ih

@[simp] theorem after_mirror (c : Hole) : c.mirror.after = c.before.reverse := by
  induction c with
  | top => rfl
  | left p r up ih => simpa [mirror, before, after] using ih
  | right l p up ih => simp [mirror, before, after, ih]

theorem plug_mirror (c : Hole) (t : Shape) : c.mirror.plug t.mirror = (c.plug t).mirror := by
  induction c generalizing t with
  | top => rfl
  | left p r up ih => exact ih (.node t p r)
  | right l p up ih => exact ih (.node l p t)

end Hole

end Dgos
