import Dgos.Core.Shape

/-!
# Heights and balances

`Bal B D t`: the balance `B p` of every node of `t` is the height of its right subtree less
that of its left one, and is -1, 0 or 1. The node `D` does not count: its subtrees hang
where it is. With `D = 0` every node counts; while a node is being removed, `D` is the
removed node, which is still linked. `HoleBal B D c h` is the same of the nodes around a hole
whose subtree has the height `h`, or had it before it changed.
-/
namespace Dgos

namespace Shape

variable {B B' : Nat → Int} {D D' p : Nat} {t l r : Shape} {f : Nat → Nat}

/-- The height, without `D`. -/
def height (D : Nat) : Shape → Nat
  | nil => 0
  | node l p r =>
    if p = D then max (l.height D) (r.height D) else max (l.height D) (r.height D) + 1

@[simp] theorem height_nil : nil.height D = 0 := rfl

theorem height_node (h : p ≠ D) : (node l p r).height D = max (l.height D) (r.height D) + 1 :=
  if_neg h

theorem height_removed : (node l D r).height D = max (l.height D) (r.height D) := if_pos rfl

theorem eq_nil_of_height_eq_zero (h : t.height D = 0) (hD : D ∉ t.addrs) : t = nil := by
  cases t with
  | nil => rfl
  | node l p r =>
    rw [height_node fun e => hD (by simp [e])] at h
    omega

/-- A node that is not there does not matter. -/
theorem height_congr (h : D ∉ t.addrs) (h' : D' ∉ t.addrs) : t.height D = t.height D' := by
  induction t with
  | nil => rfl
  | node l p r ihl ihr =>
    rw [addrs_node, List.mem_append, List.mem_cons] at h h'
    rw [height_node fun e => h (.inr (.inl e.symm)), height_node fun e => h' (.inr (.inl e.symm)),
      ihl (fun hm => h (.inl hm)) fun hm => h' (.inl hm),
      ihr (fun hm => h (.inr (.inr hm))) fun hm => h' (.inr (.inr hm))]

def Bal (B : Nat → Int) (D : Nat) : Shape → Prop
  | nil => True
  | node l p r =>
    (p ≠ D → B p = (r.height D : Int) - l.height D ∧ -1 ≤ B p ∧ B p ≤ 1) ∧ Bal B D l ∧ Bal B D r

@[simp] theorem bal_nil : Bal B D nil := trivial

theorem bal_node (h : p ≠ D) : Bal B D (node l p r) ↔
    (B p = (r.height D : Int) - l.height D ∧ -1 ≤ B p ∧ B p ≤ 1) ∧ Bal B D l ∧ Bal B D r :=
  ⟨fun hb => ⟨hb.1 h, hb.2⟩, fun hb => ⟨fun _ => hb.1, hb.2⟩⟩

theorem Bal.congr (h : Bal B D t) (hB : ∀ p ∈ t.addrs, B' p = B p) : Bal B' D t := by
  induction t with
  | nil => trivial
  | node l p r ihl ihr =>
    refine ⟨fun hp => ?_, ihl h.2.1 fun q hq => hB q (by simp [hq]),
      ihr h.2.2 fun q hq => hB q (by simp [hq])⟩
    rw [hB p (by simp)]; exact h.1 hp

theorem Bal.of_not_mem (h : Bal B D t) (hD : D ∉ t.addrs) (hD' : D' ∉ t.addrs) : Bal B D' t := by
  induction t with
  | nil => trivial
  | node l p r ihl ihr =>
    have hDl : D ∉ l.addrs := fun hm => hD (by simp [hm])
    have hDr : D ∉ r.addrs := fun hm => hD (by simp [hm])
    have hDl' : D' ∉ l.addrs := fun hm => hD' (by simp [hm])
    have hDr' : D' ∉ r.addrs := fun hm => hD' (by simp [hm])
    refine ⟨fun _ => ?_, ihl h.2.1 hDl hDl', ihr h.2.2 hDr hDr'⟩
    rw [← height_congr hDl hDl', ← height_congr hDr hDr']
    exact h.1 fun e => hD (by simp [e])

theorem height_map (hf : ∀ p, f p = D ↔ p = D) : (t.map f).height D = t.height D := by
  induction t with
  | nil => rfl
  | node l p r ihl ihr =>
    by_cases e : p = D
    · subst e
      rw [map, (hf p).2 rfl, height_removed, height_removed, ihl, ihr]
    · rw [map, height_node (fun h => e ((hf p).1 h)), height_node e, ihl, ihr]

theorem Bal.map (hf : ∀ p, f p = D ↔ p = D) (h : Bal B D t)
    (hB : ∀ p ∈ t.addrs, B' (f p) = B p) : Bal B' D (t.map f) := by
  induction t with
  | nil => trivial
  | node l p r ihl ihr =>
    refine ⟨fun hp => ?_, ihl h.2.1 fun q hq => hB q (by simp [hq]),
      ihr h.2.2 fun q hq => hB q (by simp [hq])⟩
    rw [hB p (by simp), height_map hf, height_map hf]
    exact h.1 fun e => hp ((hf p).2 e)

/-- The least number of nodes of a balanced tree of a height is a Fibonacci number, less one. -/
theorem Bal.fib_le (h : Bal B D t) (hD : D ∉ t.addrs) :
    Nat.fib (t.height D + 2) ≤ t.addrs.length + 1 := by
  induction t with
  | nil => simp
  | node l p r ihl ihr =>
    obtain ⟨hDl, hp, hDr⟩ : D ∉ l.addrs ∧ D ≠ p ∧ D ∉ r.addrs := by simpa using hD
    obtain ⟨hb, hl, hr⟩ := (bal_node hp.symm).1 h
    have hl := ihl hl hDl
    have hr := ihr hr hDr
    have hsum (n : Nat) : Nat.fib (n + 1 + 2) = Nat.fib (n + 1) + Nat.fib (n + 2) := Nat.fib_add_two
    rw [height_node hp.symm, addrs_node, List.length_append, List.length_cons, hsum]
    -- the lower subtree is at most one level below the higher one
    rcases le_total (l.height D) (r.height D) with hle | hle
    · have hlow := Nat.fib_mono (show r.height D + 1 ≤ l.height D + 2 by omega)
      rw [max_eq_right hle]
      omega
    · have hlow := Nat.fib_mono (show l.height D + 1 ≤ r.height D + 2 by omega)
      rw [max_eq_left hle]
      omega

theorem height_mirror (t : Shape) : t.mirror.height D = t.height D := by
  induction t with
  | nil => rfl
  | node l p r ihl ihr => rw [mirror_node, height, height, ihl, ihr, Nat.max_comm]

theorem Bal.mirror (h : Bal B D t) : Bal (fun p => -B p) D t.mirror := by
  induction t with
  | nil => trivial
  | node l p r ihl ihr =>
    refine ⟨fun hp => ?_, ihr h.2.2, ihl h.2.1⟩
    have := h.1 hp
    rw [height_mirror, height_mirror]
    simp only
    omega

end Shape

open Shape

namespace Hole

variable {B B' : Nat → Int} {D D' h : Nat} {c : Hole} {t : Shape}

def HoleBal (B : Nat → Int) (D : Nat) : Hole → Nat → Prop
  | top, _ => True
  | left p r up, h => p ≠ D ∧ (B p = (r.height D : Int) - h ∧ -1 ≤ B p ∧ B p ≤ 1) ∧ Bal B D r ∧
    HoleBal B D up (max h (r.height D) + 1)
  | right l p up, h => p ≠ D ∧ (B p = (h : Int) - l.height D ∧ -1 ≤ B p ∧ B p ≤ 1) ∧ Bal B D l ∧
    HoleBal B D up (max (l.height D) h + 1)

theorem bal_plug (hD : ¬ Mem D c) : Bal B D (c.plug t) ↔ Bal B D t ∧ HoleBal B D c (t.height D) := by
  induction c generalizing t with
  | top => simp [plug, HoleBal]
  | left p r up ih =>
    have hp : p ≠ D := fun e => hD (by simp [e])
    rw [plug, ih fun hm => hD (by simp [hm]), bal_node hp, height_node hp, HoleBal]
    tauto
  | right l p up ih =>
    have hp : p ≠ D := fun e => hD (by simp [e])
    rw [plug, ih fun hm => hD (by simp [hm]), bal_node hp, height_node hp, HoleBal]
    tauto

theorem HoleBal.congr (hc : HoleBal B D c h) (hB : ∀ p, Mem p c → B' p = B p) : HoleBal B' D c h := by
  induction c generalizing h with
  | top => trivial
  | left p r up ih =>
    obtain ⟨h1, h2, h3, h4⟩ := hc
    refine ⟨h1, ?_, h3.congr fun q hq => hB q (by simp [hq]), ih h4 fun q hq => hB q (by simp [hq])⟩
    rw [hB p (by simp)]; exact h2
  | right l p up ih =>
    obtain ⟨h1, h2, h3, h4⟩ := hc
    refine ⟨h1, ?_, h3.congr fun q hq => hB q (by simp [hq]), ih h4 fun q hq => hB q (by simp [hq])⟩
    rw [hB p (by simp)]; exact h2

theorem HoleBal.of_not_mem (hc : HoleBal B D c h) (hD' : ¬ Mem D' c) (hD : ¬ Mem D c) :
    HoleBal B D' c h := by
  induction c generalizing h with
  | top => trivial
  | left p r up ih =>
    obtain ⟨-, h2, h3, h4⟩ := hc
    have hr : D ∉ r.addrs := fun hm => hD (by simp [hm])
    have hr' : D' ∉ r.addrs := fun hm => hD' (by simp [hm])
    rw [height_congr hr hr'] at h2 h4
    exact ⟨fun e => hD' (by simp [e]), h2, h3.of_not_mem hr hr',
      ih h4 (fun hm => hD' (by simp [hm])) fun hm => hD (by simp [hm])⟩
  | right l p up ih =>
    obtain ⟨-, h2, h3, h4⟩ := hc
    have hl : D ∉ l.addrs := fun hm => hD (by simp [hm])
    have hl' : D' ∉ l.addrs := fun hm => hD' (by simp [hm])
    rw [height_congr hl hl'] at h2 h4
    exact ⟨fun e => hD' (by simp [e]), h2, h3.of_not_mem hl hl',
      ih h4 (fun hm => hD' (by simp [hm])) fun hm => hD (by simp [hm])⟩

end Hole

end Dgos
