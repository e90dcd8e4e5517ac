import Mathlib

/-!
# The priority queue (kernel/lib/priorityqueue.h)

A binary heap in an array. `siftup` swaps an item with its parent while the parent is smaller, so
it keeps the largest item first; `siftdown` swaps an item with its smaller child while that child
is smaller, so it wants the smallest one first. `siftdown` also looks at the right child when only
the left one is there. `remove_at` goes on with `update`, which refuses an index that is not in
use, and the index of the last item is not in use any more by then.

The slots behind the last item hold whatever was there; a failed assertion stops the kernel.

Results:
* `runs_right`: a run from the empty queue returns, and every `pop` gives the largest item, if no
  `remove_at` is for the last item, every `update` meets an odd number of items, and at most one
  item is left by a `pop`, `update` or `remove_at` that a `pop` follows.
-/
namespace Dgos.L1.PriQueue

open Function Nat

variable {T : Type}

inductive Err
  | assertion
  deriving DecidableEq, Repr

/-- mirrors priorityqueue.h:41-47 -/
structure Queue (T : Type) where
  items : Nat → T
  capacity : Nat
  count : Nat

def leftchild (index : Nat) : Nat := index + index + 1

def parent (index : Nat) : Nat := (index - 1) >>> 1

def swap (items : Nat → T) (a b : Nat) : Nat → T :=
  update (update items a (items b)) b (items a)

/-- mirrors priorityqueue.h:107-118 -/
def siftup (cmp : T → T → Int) (items : Nat → T) (index : Nat) : (Nat → T) × Nat :=
  if index = 0 then (items, index)
  else if 0 ≤ cmp (items (parent index)) (items index) then (items, index)
  else siftup cmp (swap items (parent index) index) (parent index)
termination_by index
decreasing_by
  rw [parent, shiftRight_eq_div_pow]
  omega

/-- The child that `siftdown` compares with, which may be one past the last item. -/
def smallChild (cmp : T → T → Int) (items : Nat → T) (index : Nat) : Nat :=
  let child := leftchild index
  if 0 < cmp (items child) (items (child + 1)) then child + 1 else child

/-- mirrors priorityqueue.h:120-143 -/
def siftdown (cmp : T → T → Int) (count : Nat) (items : Nat → T) (index : Nat) :
    (Nat → T) × Nat :=
  if leftchild index < count then
    let child := smallChild cmp items index
    if 0 < cmp (items index) (items child) then
      siftdown cmp count (swap items child index) child
    else (items, index)
  else (items, index)
termination_by count - index
decreasing_by
  have : leftchild index ≤ smallChild cmp items index := by
    rw [smallChild]
    split <;> omega
  simp only [leftchild] at *
  omega

variable (cmp : T → T → Int) (q : Queue T)

/-- `grow` does nothing; mirrors priorityqueue.h:152-161 -/
def push (item : T) : Queue T :=
  let items := update q.items q.count item
  { q with items := (siftup cmp items q.count).1, count := q.count + 1 }

/-- mirrors priorityqueue.h:163-175 -/
def pop : Except Err (Queue T × T) :=
  if 0 < q.count then
    let items := update q.items 0 (q.items (q.count - 1))
    let count := q.count - 1
    .ok ({ q with
      items := if 0 < count then (siftdown cmp count items 0).1 else items
      count := count }, q.items 0)
  else .error .assertion

/-- mirrors priorityqueue.h:177-185 -/
def Queue.update (index : Nat) : Except Err (Queue T) :=
  if index < q.count then
    let (items, index) := siftup cmp q.items index
    .ok { q with items := (siftdown cmp q.count items index).1 }
  else .error .assertion

/-- mirrors priorityqueue.h:187-197 -/
def removeAt (index : Nat) : Except Err (Queue T) :=
  if index < q.count then
    Queue.update cmp { q with
      items := update q.items index (q.items (q.count - 1)), count := q.count - 1 } index
  else .error .assertion

/-! ## What the queue is for -/

/-- `cmp x y` is negative, zero or positive as `x` comes before, with or behind `y`. -/
structure Comparator (T : Type) where
  cmp : T → T → Int
  total : ∀ x y, cmp x y ≤ 0 ↔ 0 ≤ cmp y x
  trans : ∀ x y z, cmp x y ≤ 0 → cmp y z ≤ 0 → cmp x z ≤ 0

inductive Op (T : Type)
  | push (item : T)
  | pop
  | update (index : Nat)
  | removeAt (index : Nat)

/-- A push within the capacity, and the others for items that are there. -/
def Op.Legal (q : Queue T) : Op T → Prop
  | .push _ => q.count < q.capacity
  | .pop => 0 < q.count
  | .update index | .removeAt index => index < q.count

def content (items : Nat → T) (count : Nat) : List T := (List.range count).map items

def live : List T := content q.items q.count

/-- The queue after a call, the item it returns, and the items put in and taken out. -/
structure Outcome (T : Type) where
  after : Queue T
  ret : Option T
  put : List T
  taken : List T

def exec : Op T → Except Err (Outcome T)
  | .push item => .ok ⟨push cmp q item, none, [item], []⟩
  | .pop => (pop cmp q).map fun r => ⟨r.1, some r.2, [], [r.2]⟩
  | .update index => (Queue.update cmp q index).map (⟨·, none, [], []⟩)
  | .removeAt index => (removeAt cmp q index).map (⟨·, none, [], [q.items index]⟩)

/-- From `q` on, every call returns, every `pop` returns an extreme of one direction, and the items
are those put in without those taken out. -/
def RightFrom (largest : Bool) : Queue T → List (Op T) → Prop
  | _, [] => True
  | q, op :: ops => op.Legal q →
    match exec cmp q op with
    | .error _ => False
    | .ok r =>
      (∀ x ∈ r.ret, ∀ y ∈ live q, if largest then 0 ≤ cmp x y else cmp x y ≤ 0) ∧
        (live r.after ++ r.taken).Perm (live q ++ r.put) ∧ RightFrom largest r.after ops

/-! ## Which runs are right -/

namespace Op

/-- The number of items after a call. -/
def left (count : Nat) : Op T → Nat
  | push _ => count + 1
  | pop | removeAt _ => count - 1
  | update _ => count

/-- The call returns and loses no item: `remove_at` is not for the last item, and `update` does not
compare with the slot behind it. -/
def Safe (count : Nat) : Op T → Prop
  | push _ | pop => True
  | update _ => count % 2 = 1
  | removeAt index => index + 1 < count

/-- The call cannot break the order that `siftup` makes. -/
def Keeps (count : Nat) : Op T → Prop
  | push _ => True
  | op => op.left count ≤ 1

end Op

/-- With `count` items to begin with, every call is safe, and keeps the order if a `pop` follows. -/
def Sound : Nat → List (Op T) → Prop
  | _, [] => True
  | count, op :: ops =>
    op.Safe count ∧ (op.Keeps count ∨ .pop ∉ ops) ∧ Sound (op.left count) ops

section
variable {cmp} [DecidableEq T] {q} {largest : Bool}

instance : ∀ op : Op T, Decidable (op.Legal q)
  | .push _ | .pop | .update _ | .removeAt _ => by unfold Op.Legal; infer_instance

instance : ∀ (ops : List (Op T)) (q : Queue T), Decidable (RightFrom cmp largest q ops)
  | [], _ => .isTrue trivial
  | op :: ops, q => by
    have := fun q => instDecidableRightFrom ops q
    unfold RightFrom
    cases exec cmp q op <;> infer_instance

end

/-! ## The items -/

variable {cmp q} {items : Nat → T} {index count a b : Nat} {x : T}

theorem parent_lt (h : 0 < index) : parent index < index := by
  rw [parent, shiftRight_eq_div_pow]
  omega

@[simp] theorem swap_right : swap items a b b = items a := update_self ..

theorem swap_left (h : a ≠ b) : swap items a b a = items b := by
  rw [swap, update_of_ne h, update_self]

theorem swap_of_ne (ha : index ≠ a) (hb : index ≠ b) : swap items a b index = items index := by
  rw [swap, update_of_ne hb, update_of_ne ha]

theorem content_push : content (update items count x) (count + 1) = content items count ++ [x] := by
  rw [content, List.range_succ, List.map_append, List.map_singleton, update_self]
  congr 1
  exact List.map_congr_left fun i hi => update_of_ne (List.mem_range.1 hi).ne _ _

theorem content_swap (ha : a < count) (hb : b < count) :
    (content (swap items a b) count).Perm (content items count) := by
  have hswap : swap items a b ∘ Fin.val =
      (items ∘ Fin.val) ∘ Equiv.swap (⟨a, ha⟩ : Fin count) ⟨b, hb⟩ := by
    funext i
    simp only [swap, comp, update_apply, Equiv.swap_apply_def, Fin.ext_iff]
    split_ifs <;> simp_all
  rw [content, content, ← List.map_coe_finRange_eq_range, List.map_map, List.map_map, hswap,
    ← List.map_map]
  exact (Equiv.Perm.map_finRange_perm _).map _

/-- The last item takes the place of another one. -/
theorem content_replace (h : index < count) :
    (content (update items index (items (count - 1))) (count - 1) ++ [items index]).Perm
      (content items count) := by
  obtain _ | count := count
  · omega
  rw [← content_push]
  exact content_swap h count.lt_succ_self

/-- `siftup` moves the item, and nothing behind the last one. -/
theorem siftup_spec (h : index < count) :
    (content (siftup cmp items index).1 count).Perm (content items count) ∧
      (siftup cmp items index).2 < count ∧
      (siftup cmp items index).1 (siftup cmp items index).2 = items index ∧
      (siftup cmp items index).1 count = items count := by
  fun_induction siftup cmp items index with
  | case1 => exact ⟨.rfl, h, rfl, rfl⟩
  | case2 => exact ⟨.rfl, h, rfl, rfl⟩
  | case3 items index h0 hlt ih =>
    have hp := parent_lt (Nat.pos_of_ne_zero h0)
    obtain ⟨hperm, hidx, hitem, hend⟩ := ih (hp.trans h)
    refine ⟨hperm.trans (content_swap (hp.trans h) h), hidx, hitem.trans ?_, hend.trans ?_⟩
    · exact swap_left hp.ne
    · exact swap_of_ne (hp.trans h).ne' h.ne'

theorem smallChild_eq : smallChild cmp items index = leftchild index ∨
    smallChild cmp items index = leftchild index + 1 := by
  rw [smallChild]
  split <;> simp

theorem siftdown_content (h : index < count)
    (hend : count % 2 = 0 → cmp (items index) (items count) ≤ 0) :
    (content (siftdown cmp count items index).1 count).Perm (content items count) := by
  fun_induction siftdown cmp count items index with
  | case1 items index hleft child hcmp ih =>
    have hchild : child = leftchild index ∨ child = leftchild index + 1 := smallChild_eq
    have hlt : child < count := by
      by_contra hge'
      obtain rfl : child = count := by omega
      have := hend (by simp only [leftchild] at *; omega)
      omega
    have hne : child ≠ index := by simp only [leftchild] at *; omega
    refine (ih hlt fun hev => ?_).trans (content_swap hlt h)
    rw [swap_left hne, swap_of_ne hlt.ne' h.ne']
    exact hend hev
  | case2 => exact .rfl
  | case3 => exact .rfl

/-! ## The order -/

/-- No item is above its parent: the order that `siftup` makes. -/
def Ordered (cmp : T → T → Int) (items : Nat → T) (count : Nat) : Prop :=
  ∀ i < count, 0 < i → 0 ≤ cmp (items (parent i)) (items i)

variable {c : Comparator T}

theorem Comparator.cmp_self (x : T) : c.cmp x x = 0 := by
  have := c.total x x
  omega

theorem Comparator.ge_trans {x y z : T} (h1 : 0 ≤ c.cmp x y) (h2 : 0 ≤ c.cmp y z) : 0 ≤ c.cmp x z :=
  (c.total z x).1 (c.trans z y x ((c.total z y).2 h2) ((c.total y x).2 h1))

theorem Ordered.root (h : Ordered c.cmp items count) (i : Nat) (hi : i < count) :
    0 ≤ c.cmp (items 0) (items i) := by
  induction i using Nat.strongRecOn with
  | ind i ih =>
    obtain rfl | h0 := i.eq_zero_or_pos
    · exact (c.cmp_self _).ge
    · have hp := parent_lt h0
      exact c.ge_trans (ih _ hp (hp.trans hi)) (h i hi h0)

/-- The order but for the item at `index`, which may be above its parent. -/
theorem siftup_ordered (hlt : index < count)
    (hrest : ∀ i < count, 0 < i → i ≠ index → 0 ≤ c.cmp (items (parent i)) (items i))
    (hgrand : ∀ i < count, 0 < i → parent i = index → 0 < index →
      0 ≤ c.cmp (items (parent index)) (items i)) :
    Ordered c.cmp (siftup c.cmp items index).1 count := by
  fun_induction siftup c.cmp items index with
  | case1 items => exact fun i hi h0 => hrest i hi h0 h0.ne'
  | case2 items index h0 hge =>
    intro i hi hpos
    obtain rfl | hne := eq_or_ne i index
    · exact hge
    · exact hrest i hi hpos hne
  | case3 items index h0 hup ih =>
    have hpos := Nat.pos_of_ne_zero h0
    have hp := parent_lt hpos
    have hgt : 0 ≤ c.cmp (items index) (items (parent index)) :=
      (c.total _ _).1 (by omega)
    -- the parent is above what was below it
    have hsib : ∀ i < count, 0 < i → parent i = parent index → i ≠ index →
        0 ≤ c.cmp (items (parent index)) (items i) := fun i hi h0 he hne => he ▸ hrest i hi h0 hne
    refine ih (hp.trans hlt) (fun i hi hi0 hne => ?_) fun i hi hi0 he hp0 => ?_
    · obtain rfl | hni := eq_or_ne i index
      · rw [swap_right, swap_left hp.ne]
        exact hgt
      rw [swap_of_ne hne hni]
      obtain he | hpi := eq_or_ne (parent i) index
      · rw [he, swap_right]
        exact hgrand i hi hi0 he hpos
      obtain he | hpp := eq_or_ne (parent i) (parent index)
      · rw [he, swap_left hp.ne]
        exact c.ge_trans hgt (hsib i hi hi0 he hni)
      · rw [swap_of_ne hpp hpi]
        exact hrest i hi hi0 hni
    · have hpp := parent_lt hp0
      have hpar := hrest _ (hp.trans hlt) hp0 hp.ne
      rw [swap_of_ne hpp.ne (hpp.trans hp).ne]
      obtain rfl | hni := eq_or_ne i index
      · rw [swap_right]
        exact hpar
      · rw [swap_of_ne (fun h => (parent_lt hi0).ne (he.trans h.symm)) hni]
        exact c.ge_trans hpar (hsib i hi hi0 he hni)

/-! ## Calls and runs -/

theorem update_right (hl : index < q.count)
    (hend : q.count % 2 = 0 → cmp (q.items index) (q.items q.count) ≤ 0) :
    ∃ q', Queue.update cmp q index = .ok q' ∧ (live q').Perm (live q) ∧ q'.count = q.count := by
  obtain ⟨hperm, hidx, hitem, hend'⟩ := @siftup_spec _ cmp q.items _ _ hl
  exact ⟨_, if_pos hl, (siftdown_content hidx (by rwa [hitem, hend'])).trans hperm, rfl⟩

theorem removeAt_right (hs : index + 1 < q.count) : ∃ q', removeAt c.cmp q index = .ok q' ∧
    (live q' ++ [q.items index]).Perm (live q) ∧ q'.count = q.count - 1 := by
  have hlt : index < q.count - 1 := by omega
  -- the slot behind the last item still has the item that was moved
  obtain ⟨q', he, hperm, hcount⟩ := @update_right _ c.cmp { q with
      items := update q.items index (q.items (q.count - 1)), count := q.count - 1 } _ hlt
    fun _ => by simp only [update_self, update_of_ne hlt.ne', c.cmp_self, le_refl]
  exact ⟨q', (if_pos (by omega)).trans he,
    (hperm.append_right _).trans (content_replace (by omega)), hcount⟩

theorem pop_right (hl : 0 < q.count) : ∃ q', pop c.cmp q = .ok (q', q.items 0) ∧
    (live q' ++ [q.items 0]).Perm (live q) ∧ q'.count = q.count - 1 := by
  refine ⟨_, if_pos hl, (List.Perm.append_right _ ?_).trans (content_replace hl), rfl⟩
  rw [live]
  split
  · next h =>
    exact siftdown_content h fun _ => by rw [update_self, update_of_ne h.ne', c.cmp_self]
  · exact .rfl

theorem push_ordered (h : Ordered c.cmp q.items q.count) (item : T) :
    Ordered c.cmp (push c.cmp q item).items (push c.cmp q item).count := by
  refine siftup_ordered q.count.lt_succ_self (fun i hi h0 hne => ?_) fun i hi h0 he => ?_
  all_goals
    have hi : i < q.count + 1 := hi
    have hp := parent_lt h0
  · rw [update_of_ne hne, update_of_ne (by omega)]
    exact h i (by omega) h0
  · omega

/-- A safe call returns the first item if it is a `pop`, and loses no item. -/
theorem exec_right {op : Op T} (hl : op.Legal q) (hs : op.Safe q.count) :
    ∃ r, exec c.cmp q op = .ok r ∧ (live r.after ++ r.taken).Perm (live q ++ r.put) ∧
      (∀ x ∈ r.ret, op = .pop ∧ x = q.items 0) ∧ r.after.count = op.left q.count := by
  cases op with
  | push item =>
    have hperm : (live (push c.cmp q item)).Perm (live q ++ [item]) :=
      (siftup_spec q.count.lt_succ_self).1.trans (.of_eq content_push)
    exact ⟨_, rfl, by simpa using hperm, nofun, rfl⟩
  | pop =>
    obtain ⟨q', he, hperm, hcount⟩ := pop_right hl
    exact ⟨⟨q', some (q.items 0), [], [q.items 0]⟩, by rw [exec, he]; rfl, by simpa using hperm,
      fun x hx => ⟨rfl, (Option.some.inj hx).symm⟩, hcount⟩
  | update index =>
    obtain ⟨q', he, hperm, hcount⟩ := @update_right _ c.cmp q _ hl fun h => by
      have : q.count % 2 = 1 := hs
      omega
    exact ⟨⟨q', none, [], []⟩, by rw [exec, he]; rfl, by simpa using hperm, nofun, hcount⟩
  | removeAt index =>
    obtain ⟨q', he, hperm, hcount⟩ := removeAt_right hs
    exact ⟨⟨q', none, [], [q.items index]⟩, by rw [exec, he]; rfl, by simpa using hperm, nofun,
      hcount⟩

theorem exec_ordered {op : Op T} {r : Outcome T} (h : Ordered c.cmp q.items q.count)
    (hk : op.Keeps q.count) (he : exec c.cmp q op = .ok r)
    (hcount : r.after.count = op.left q.count) :
    Ordered c.cmp r.after.items r.after.count := by
  cases op with
  | push item => exact Except.ok.inj he ▸ push_ordered h item
  | _ => exact fun i hi h0 => absurd (hi.trans_le (hcount.trans_le hk)) (by omega)

/-- **The priority queue.** Every `pop` of a sound run returns the largest item. -/
theorem runs_right (c : Comparator T) (items : Nat → T) (capacity : Nat) (ops : List (Op T))
    (h : Sound 0 ops) : RightFrom c.cmp true ⟨items, capacity, 0⟩ ops := by
  -- the items are in order as long as a `pop` is to come
  have hrun : ∀ q : Queue T, Ordered c.cmp q.items q.count ∨ .pop ∉ ops → Sound q.count ops →
      RightFrom c.cmp true q ops := by
    clear h
    induction ops with
    | nil => exact fun _ _ _ => trivial
    | cons op ops ih =>
      rintro q hq ⟨hs, hk, hnext⟩ hl
      obtain ⟨r, he, hperm, hret, hcount⟩ := exec_right hl hs
      rw [he]
      refine ⟨fun x hx y hy => ?_, hperm, ih _ ?_ (hcount ▸ hnext)⟩
      · obtain ⟨rfl, rfl⟩ := hret x hx
        obtain ⟨i, hi, rfl⟩ := List.mem_map.1 hy
        exact (hq.resolve_right (· List.mem_cons_self)).root i (List.mem_range.1 hi)
      · obtain hk | hpop := hk
        · exact hq.imp (exec_ordered · hk he hcount) fun h hm => h (List.mem_cons_of_mem _ hm)
        · exact .inr hpop
  exact hrun _ (.inl nofun) h

/-- The order of the numbers. -/
def natComparator : Comparator Nat :=
  ⟨fun x y => x - y, by intros; omega, by intros; omega⟩

theorem runs_right_sample : RightFrom natComparator.cmp true ⟨fun _ => 0, 4, 0⟩
    [.push 5, .push 7, .pop, .update 0, .push 9, .pop, .push 3, .push 8, .update 1, .removeAt 0] :=
  runs_right natComparator _ _ _ (by simp [Sound, Op.Safe, Op.Keeps, Op.left])

/-- Of 2, 2 and 1 the first `pop` returns 2, and the second one returns 1 while 2 is left; the only
item cannot be removed. -/
theorem smaller_popped : (pop natComparator.cmp (push natComparator.cmp (push natComparator.cmp
          (push natComparator.cmp ⟨fun _ => 1, 3, 0⟩ 2) 2) 1)).bind (fun r =>
      (pop natComparator.cmp r.1).map fun r' => (r.2, r'.2)) = .ok (2, 1) ∧
      (∀ largest, ¬ RightFrom natComparator.cmp largest ⟨fun _ => 1, 3, 0⟩
        [.push 2, .push 2, .push 1, .pop, .pop]) ∧
      ∀ largest, ¬ RightFrom natComparator.cmp largest ⟨fun _ => 1, 3, 0⟩ [.push 2, .removeAt 0] := by
  decide +kernel

end Dgos.L1.PriQueue
