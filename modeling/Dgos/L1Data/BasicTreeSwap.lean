import Dgos.L1Data.BasicTreeWalk

/-!
# Two nodes change places

`__swap_nodes` exchanges the links of two nodes in place, with one piece of code for a node and
its child and another for two nodes that are apart. Either way the shape is the old one with
the two addresses exchanged (`swapNodes_spec`).
-/
namespace Dgos.L1.BasicTree

open Shape Hole Function Equiv

variable {α : Type} {s : St α} {t : Shape} {a b q : Nat} {l : List Nat}

/-- What a tree says about the links of its nodes, one node at a time. -/
structure Wired (m : Links) (l : List Nat) : Prop where
  pos : ∀ q ∈ l, q ≠ 0
  left : ∀ q ∈ l, m.left q ≠ 0 → m.left q ∈ l ∧ m.parent (m.left q) = q
  right : ∀ q ∈ l, m.right q ≠ 0 → m.right q ∈ l ∧ m.parent (m.right q) = q
  apart : ∀ q ∈ l, m.left q ≠ 0 → m.left q ≠ m.right q
  up : ∀ q ∈ l, m.parent q ≠ 0 → m.parent q ∈ l ∧ m.parent q ≠ q ∧
    (m.left (m.parent q) = q ∨ m.right (m.parent q) = q)

theorem wired (hrep : Rep s.toLinks 0 t) (hnd : t.addrs.Nodup) : Wired s.toLinks t.addrs := by
  refine ⟨fun q hq => hrep.ne_zero hq, fun q hq h0 => hrep.child hq h0 (.inl rfl),
    fun q hq h0 => hrep.child hq h0 (.inr rfl), fun q hq => hrep.left_ne_right hnd hq,
    fun q hq h0 => ?_⟩
  rcases hrep.parent_cases hq with ⟨-, h⟩ | ⟨-, hm, hc⟩
  · exact absurd h h0
  refine ⟨hm, fun e => ?_, hc⟩
  obtain ⟨c, l, r, rfl⟩ := exists_plug hq
  obtain ⟨⟨-, hpar, -⟩, hc'⟩ := rep_plug.1 hrep
  rw [hpar] at e h0
  have htop : c ≠ .top := fun e' => h0 (by rw [e']; rfl)
  exact (nodup_plug.1 hnd).2.2 q (by simp) (e ▸ par_mem htop)

theorem setSlot_left (s s0 : St α) (a v q : Nat) : (setSlot s (slotOf s0 a) v).left q =
    if s0.parent a ≠ 0 ∧ q = s0.parent a ∧ s0.left q = a then v else s.left q := by
  unfold slotOf
  split
  · simp [setSlot, *]
  · split
    · simp only [setSlot, update_apply]
      grind
    · simp only [setSlot]
      grind

theorem setSlot_right (s s0 : St α) (a v q : Nat) : (setSlot s (slotOf s0 a) v).right q =
    if s0.parent a ≠ 0 ∧ q = s0.parent a ∧ s0.left q ≠ a then v else s.right q := by
  unfold slotOf
  split
  · simp [setSlot, *]
  · split
    · simp only [setSlot]
      grind
    · simp only [setSlot, update_apply]
      grind

theorem setSlot_parent (s s0 : St α) (a v : Nat) :
    (setSlot s (slotOf s0 a) v).parent = s.parent := by
  unfold slotOf
  split
  · rfl
  · split <;> rfl

theorem setSlot_root (s s0 : St α) (a v : Nat) :
    (setSlot s (slotOf s0 a) v).root = if s0.parent a = 0 then v else s.root := by
  unfold slotOf
  split
  · rfl
  · split <;> rfl

theorem setSlot_same (s : St α) (slot : Slot) (v : Nat) :
    Same s (setSlot s slot v) ∧ (setSlot s slot v).balance = s.balance := by
  cases slot <;> exact ⟨⟨rfl, rfl, rfl, rfl, rfl⟩, rfl⟩

theorem swapAt_apply {β : Type} (f : Nat → β) (q : Nat) :
    swapAt f a b q = if q = b then f a else if q = a then f b else f q := by
  simp [swapAt, update_apply]

/-- The pointers to `a` and `b` still point at them when the two have traded their links. -/
structure Slots (s : St α) (a b : Nat) : Prop where
  slotA : getSlot (tradeLinks s a b) (slotOf s a) = a
  slotB : getSlot (tradeLinks s a b) (slotOf s b) = b

theorem swapApart_left (h : Slots s a b) (q : Nat) : (swapApart s a b).left q =
    if s.parent b ≠ 0 ∧ q = s.parent b ∧ s.left q = b then a
    else if s.parent a ≠ 0 ∧ q = s.parent a ∧ s.left q = a then b else swapAt s.left a b q := by
  simp only [swapApart, setParent_left, setSlot_left, h.slotA, h.slotB]
  rfl

theorem swapApart_right (h : Slots s a b) (q : Nat) : (swapApart s a b).right q =
    if s.parent b ≠ 0 ∧ q = s.parent b ∧ s.left q ≠ b then a
    else if s.parent a ≠ 0 ∧ q = s.parent a ∧ s.left q ≠ a then b else swapAt s.right a b q := by
  simp only [swapApart, setParent_right, setSlot_right, h.slotA, h.slotB]
  rfl

theorem swapApart_parent (q : Nat) : (swapApart s a b).parent q =
    if q ≠ 0 ∧ (q = (swapApart s a b).right b ∨ q = (swapApart s a b).left b) then b
    else if q ≠ 0 ∧ (q = (swapApart s a b).right a ∨ q = (swapApart s a b).left a) then a
    else swapAt s.parent a b q := by
  simp only [swapApart, setParent_parent, setParent_left, setParent_right, setSlot_parent, tradeLinks]
  grind

/-- The links of `m'` are those of `m` with `a` and `b` exchanged. -/
def Exchanged (m m' : Links) (a b : Nat) (l : List Nat) : Prop :=
  ∀ q ∈ l, m'.left (Equiv.swap a b q) = Equiv.swap a b (m.left q) ∧
    m'.right (Equiv.swap a b q) = Equiv.swap a b (m.right q) ∧
    m'.parent (Equiv.swap a b q) = Equiv.swap a b (m.parent q)

theorem Wired.of_mem {m : Links} (h : Wired m l) (hq : q ∈ l) :
    q ≠ 0 ∧ (m.left q ≠ 0 → m.parent (m.left q) = q ∧ m.left q ≠ m.right q) ∧
      (m.right q ≠ 0 → m.parent (m.right q) = q) ∧
      (m.parent q ≠ 0 → m.parent q ≠ q ∧ (m.left (m.parent q) = q ∨ m.right (m.parent q) = q) ∧
        m.left (m.parent q) ≠ m.right (m.parent q)) := by
  refine ⟨h.pos q hq, fun h0 => ⟨(h.left q hq h0).2, h.apart q hq h0⟩, fun h0 => (h.right q hq h0).2,
    fun h0 => ?_⟩
  obtain ⟨hm, hne, hc⟩ := h.up q hq h0
  refine ⟨hne, hc, fun e => ?_⟩
  have hl : m.left (m.parent q) = q := hc.elim id e.trans
  exact h.apart _ hm (by rw [hl]; exact h.pos q hq) e

theorem swapAdjacent_exchanged (h : Wired s.toLinks l) (ha : a ∈ l) (hb : b ∈ l)
    (hab : a = s.parent b) (hba : b ≠ s.parent a) :
    Exchanged s.toLinks (swapAdjacent s a b).toLinks a b l := by
  intro q hq
  have hqa := h.of_mem ha
  have hqb := h.of_mem hb
  have hqq := h.of_mem hq
  refine ⟨?_, ?_, ?_⟩
  · simp only [swapAdjacent, setParent_left, setSlot_left, update_apply, swap_apply_def]
    grind
  · simp only [swapAdjacent, setParent_right, setSlot_right, update_apply, swap_apply_def]
    grind
  · simp only [swapAdjacent, setParent_parent, setSlot_parent, update_apply, swap_apply_def]
    grind

theorem swapApart_exchanged (h : Wired s.toLinks l) (ha : a ∈ l) (hb : b ∈ l)
    (hab : a ≠ s.parent b) (hba : b ≠ s.parent a) (hs : Slots s a b) :
    Exchanged s.toLinks (swapApart s a b).toLinks a b l := by
  intro q hq
  have hqa := h.of_mem ha
  have hqb := h.of_mem hb
  have hqq := h.of_mem hq
  refine ⟨?_, ?_, ?_⟩
  · simp only [swapApart_left hs, swap_apply_def, swapAt_apply]
    grind
  · simp only [swapApart_right hs, swap_apply_def, swapAt_apply]
    grind
  · have hchild : (swapApart s a b).left a = s.left b ∧ (swapApart s a b).left b = s.left a ∧
        (swapApart s a b).right a = s.right b ∧ (swapApart s a b).right b = s.right a := by
      simp only [swapApart_left hs, swapApart_right hs, swapAt_apply]
      grind
    obtain ⟨h1, h2, h3, h4⟩ := hchild
    simp only [swapApart_parent, h1, h2, h3, h4, swap_apply_def, swapAt_apply]
    grind

theorem swapAdjacent_same : Same s (swapAdjacent s a b) ∧
    (swapAdjacent s a b).balance = s.balance := by
  obtain ⟨h1, h2⟩ := setSlot_same { s with toLinks := setParent _ _ b } (slotOf s a) b
  exact ⟨{ h1 with }, h2⟩

theorem swapApart_same : Same s (swapApart s a b) ∧ (swapApart s a b).balance = s.balance := by
  obtain ⟨h1, h2⟩ := setSlot_same (tradeLinks s a b) (slotOf s a)
    (getSlot (tradeLinks s a b) (slotOf s b))
  obtain ⟨h3, h4⟩ := setSlot_same (setSlot (tradeLinks s a b) (slotOf s a)
    (getSlot (tradeLinks s a b) (slotOf s b))) (slotOf s b) (getSlot (tradeLinks s a b) (slotOf s a))
  exact ⟨⟨h3.item.trans h1.item, h3.first.trans h1.first, h3.last.trans h1.last,
    h3.size.trans h1.size, h3.live.trans h1.live⟩, h4.trans h2⟩

theorem swapApart_root (h : Slots s a b) : (swapApart s a b).root =
    if s.parent b = 0 then a else if s.parent a = 0 then b else s.root := by
  simp only [swapApart, setSlot_root, h.slotA, h.slotB]
  rfl

theorem parent_eq_zero (hrep : Rep s.toLinks 0 t) (hq : q ∈ t.addrs) :
    s.parent q = 0 ↔ q = t.root := by
  constructor
  · intro h
    rcases hrep.parent_cases hq with ⟨h', -⟩ | ⟨h', -⟩
    · exact h'
    · exact absurd h h'
  · rintro rfl
    exact hrep.parent_root fun e => by rw [e] at hq; cases hq

theorem getSlot_slotOf (s1 : St α) (ht : IsTree s 0 t) (hq : q ∈ t.addrs)
    (hroot : s1.root = s.root) (hl : s1.left (s.parent q) = s.left (s.parent q))
    (hr : s1.right (s.parent q) = s.right (s.parent q)) : getSlot s1 (slotOf s q) = q := by
  have hat := (wired ht.rep ht.nodup).of_mem hq
  unfold slotOf
  split
  · rename_i h0
    rw [getSlot, hroot, ht.root, (parent_eq_zero ht.rep hq).1 h0]
  split
  · rename_i h1
    rw [getSlot, hl, h1]
  · rename_i h0 h1
    rw [getSlot, hr]
    exact (hat.2.2.2 h0).2.1.resolve_left h1

theorem slots (ht : IsTree s 0 t) (ha : a ∈ t.addrs) (hb : b ∈ t.addrs) (hab : a ≠ s.parent b)
    (hba : b ≠ s.parent a) : Slots s a b := by
  have hat := (wired ht.rep ht.nodup).of_mem ha
  have hbt := (wired ht.rep ht.nodup).of_mem hb
  refine ⟨getSlot_slotOf _ ht ha rfl ?_ ?_, getSlot_slotOf _ ht hb rfl ?_ ?_⟩
  all_goals
    simp only [tradeLinks, swapAt_apply]
    grind

theorem swapNodes_spec (ht : IsTree s 0 t) (ha : a ∈ t.addrs) (hb : b ∈ t.addrs)
    (hba : b ≠ s.parent a) : ∃ s', swapNodes s a b = .ok s' ∧ Same s s' ∧
      IsTree s' 0 (t.map (swap a b)) := by
  have hw := wired ht.rep ht.nodup
  have ha0 := hw.pos a ha
  have hb0 := hw.pos b hb
  have h0 : ∀ q, swap a b q = 0 ↔ q = 0 := fun q => by grind
  have hra := parent_eq_zero ht.rep ha
  have hrb := parent_eq_zero ht.rep hb
  -- both pieces of code exchange the two addresses; the balances change places last
  have hboth : ∀ s1 : St α, Same s s1 → s1.balance = s.balance →
      Exchanged s.toLinks s1.toLinks a b t.addrs → s1.root = swap a b s.root →
      Same s { s1 with balance := swapAt s1.balance a b } ∧
        IsTree { s1 with balance := swapAt s1.balance a b } 0 (t.map (swap a b)) := by
    intro s1 hs hB he hroot
    refine ⟨{ hs with }, ?_, ?_, ?_, ?_⟩
    · have hrep : Rep s1.toLinks (swap a b 0) (t.map (swap a b)) :=
        ht.rep.map ((h0 0).2 rfl) (fun p hp e => hw.pos p hp ((h0 p).1 e)) he
      rwa [(h0 0).2 rfl] at hrep
    · rw [addrs_map]
      exact ht.nodup.map (swap a b).injective
    · rw [root_map ((h0 0).2 rfl), ← ht.root]
      exact hroot
    · refine ht.bal.map h0 fun p hp => ?_
      simp only [swapAt_apply, swap_apply_def]
      grind
  rw [swapNodes, assert, if_pos hba]
  by_cases hab : a = s.parent b
  · obtain ⟨h1, h2⟩ := hboth _ swapAdjacent_same.1 swapAdjacent_same.2
      (swapAdjacent_exchanged hw ha hb hab hba) (by
        rw [swapAdjacent, setSlot_root, ht.root]
        grind)
    exact ⟨_, by rw [if_pos hab]; rfl, h1, h2⟩
  · have hs := slots ht ha hb hab hba
    obtain ⟨h1, h2⟩ := hboth _ swapApart_same.1 swapApart_same.2
      (swapApart_exchanged hw ha hb hab hba hs) (by
        rw [swapApart_root hs, ht.root]
        grind)
    exact ⟨_, by rw [if_neg hab]; rfl, h1, h2⟩

end Dgos.L1.BasicTree
