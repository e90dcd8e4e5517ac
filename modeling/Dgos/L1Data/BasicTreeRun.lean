import Dgos.L1Data.BasicTreeErase

/-!
# Runs of the search tree

A run starts with an empty tree over any memory and calls `insert`, `emplace`, `erase`,
`extract` and `clear` in any order; `handles` are the extracted nodes that the caller holds, and
may give back. Beside the tree runs the set of keys that the same calls make of the empty set.

Results:
* `run_wellformed`: no assertion fails, every loop ends, and in every state the links, the
  balances, the order, the ends and the count are right and the keys are that set.
* `treeNext_refines`, `treePrev_refines`, `lowerBound_refines`: iterators and searches answer
  what those of the set (`OrdSet`) answer.
* `iterators_right`: whole iterations, and what an `erase` leaves of them.
* `search_short`: the number of nodes that a search looks at.
-/
namespace Dgos.L1.BasicTree

open List OrdSet

variable {α κ : Type} [LinearOrder κ] (key : α → κ)

inductive Op (α κ : Type) where
  | insert (v : α) (new : Nat)
  | emplace (v : α) (new : Nat)
  /-- `insert(node_type&&)` -/
  | insertNode (node : Nat)
  /-- an assignment to the value of a handle -/
  | setValue (node : Nat) (v : α)
  /-- the end of a handle -/
  | drop (node : Nat)
  | erase (k : κ)
  | eraseAt (place : Nat)
  | extract (k : κ)
  | extractAt (place : Nat)
  | clear

structure Run (α : Type) where
  tree : St α
  handles : List Nat

/-- An iterator that is in the tree. -/
def iter (s : St α) (place : Nat) : Except Err Unit := do
  let q ← treeFind key s (key (s.item place))
  if q = place ∧ q ≠ 0 then pure () else throw .env

def held (r : Run α) (node : Nat) : Except Err Unit :=
  if node ∈ r.handles then pure () else throw .env

def step (r : Run α) : Op α κ → Except Err (Run α)
  | .insert v new => do
    let (s, _, _) ← insert key r.tree v new
    pure { r with tree := s }
  | .emplace v new => do
    let (s, _, _) ← emplace key r.tree v new
    pure { r with tree := s }
  | .insertNode node => do
    if node = 0 then pure r
    else do
      held r node
      let (s, _, _) ← insertNode key r.tree node
      pure { tree := s, handles := r.handles.erase node }
  | .setValue node v => do
    held r node
    pure { r with tree := setItem r.tree node v }
  | .drop node => do
    held r node
    pure { tree := { r.tree with live := r.tree.live.erase node }, handles := r.handles.erase node }
  | .erase k => do
    let (s, _) ← erase key r.tree k
    pure { r with tree := s }
  | .eraseAt place => do
    iter key r.tree place
    let (s, _) ← eraseAt r.tree place
    pure { r with tree := s }
  | .extract k => do
    let (s, node) ← extract key r.tree k
    pure { tree := s, handles := if node = 0 then r.handles else node :: r.handles }
  | .extractAt place => do
    iter key r.tree place
    let s ← extractAt r.tree place
    pure { tree := s, handles := place :: r.handles }
  | .clear => do
    let s ← clear r.tree
    pure { r with tree := s }

/-- What the call makes of the set of keys; `item` are the values of the nodes. -/
def setStep (item : Nat → α) (S : OrdSet κ) : Op α κ → OrdSet κ
  | .insert v _ => (S.insert (key v)).1
  | .emplace v _ => (S.insert (key v)).1
  | .insertNode node => if node = 0 then S else (S.insert (key (item node))).1
  | .setValue _ _ => S
  | .drop _ => S
  | .erase k => S.erase k
  | .eraseAt place => S.erase (key (item place))
  | .extract k => S.erase k
  | .extractAt place => S.erase (key (item place))
  | .clear => OrdSet.empty

def run : Run α → OrdSet κ → List (Op α κ) → Except Err (Run α × OrdSet κ)
  | r, S, [] => pure (r, S)
  | r, S, op :: ops => do
    let r' ← step key r op
    run r' (setStep key r.tree.item S op) ops

/-- An empty tree over the memory `m`. -/
def start (m : St α) : Run α :=
  ⟨{ m with root := 0, first := 0, last := 0, currentSize := 0, live := [] }, []⟩

/-! ## The invariant -/

open Shape Hole

variable {key} {r : Run α} {S : OrdSet κ} {t : Shape} {s : St α} {p : Nat} {l : List Nat}

structure Inv (key : α → κ) (r : Run α) (S : OrdSet κ) (t : Shape) : Prop where
  models : Models key r.tree t S
  held : ∀ n ∈ r.handles, n ≠ 0 ∧ n ∈ r.tree.live ∧ n ∉ t.addrs
  nodup : r.handles.Nodup

theorem iter_spec (h : Models key s t S) (p : Nat) :
    Ensures (· = .env) (iter key s p) fun _ => p ∈ t.addrs := by
  obtain ⟨q, hq, hcase⟩ := treeFind_spec h.tree h.ordered h.size
  rw [iter, ok_bind hq]
  split_ifs with hqp
  · obtain ⟨rfl, h0⟩ := hqp
    rcases hcase with ⟨e, -⟩ | ⟨hm, -⟩
    · exact absurd e h0
    · exact hm
  · rfl

theorem held_spec (r : Run α) (n : Nat) :
    Ensures (· = .env) (BasicTree.held r n) fun _ => n ∈ r.handles := by
  unfold BasicTree.held
  split
  · assumption
  · rfl

section

variable (h : Inv key r S t) {s' : St α} {hs : List Nat}
include h

theorem Inv.inserted {k : κ} {N : Nat → Prop} {res : St α × Nat × Bool}
    (hi : Inserted key r.tree t S k N res) (hsub : hs.Sublist r.handles)
    (hN : ∀ q, N q → q ∉ hs) : ∃ t', Inv key ⟨res.1, hs⟩ (S.insert k).1 t' := by
  obtain ⟨⟨t', ht', -, hmem⟩, -, -, hkept⟩ := hi
  refine ⟨t', ht', fun m hm => ?_, h.nodup.sublist hsub⟩
  obtain ⟨h0, hlive, hout⟩ := h.held m (hsub.subset hm)
  exact ⟨h0, (hkept m hlive).1, fun hm' => (hmem m hm').elim hout fun hNm => hN m hNm hm⟩

/-- The tree after some of its nodes have gone, none of them held. -/
theorem Inv.shrunk {S' : OrdSet κ} {t' : Shape}
    (ht' : Models key s' t' S') (hsub : ∀ q ∈ t'.addrs, q ∈ t.addrs)
    (hlive : ∀ q ∈ r.tree.live, q ∉ t.addrs → q ∈ s'.live) : Inv key ⟨s', r.handles⟩ S' t' :=
  ⟨ht', fun n hn => ⟨(h.held n hn).1, hlive n (h.held n hn).2.1 (h.held n hn).2.2,
    fun hm => (h.held n hn).2.2 (hsub n hm)⟩, h.nodup⟩

theorem Inv.detached (hp : p ∈ t.addrs) (hd : Detached key r.tree t S p s') :
    ∃ t', Inv key ⟨s', p :: r.handles⟩ (S.erase (key (r.tree.item p))) t' := by
  obtain ⟨⟨t', ht', hpt, hsub⟩, -, hlive⟩ := hd
  have hs := h.shrunk ht' hsub fun q hq _ => hlive ▸ hq
  refine ⟨t', ht', forall_mem_cons.2 ⟨⟨h.models.tree.rep.ne_zero hp, hlive ▸ h.models.live p hp,
    hpt⟩, hs.held⟩, nodup_cons.2 ⟨fun hm => (h.held p hm).2.2 hp, h.nodup⟩⟩

theorem Inv.outside {n : Nat} (hn : n ∈ r.handles)
    (hsub : hs.Sublist r.handles) (hlinks : s'.toLinks = r.tree.toLinks)
    (hbal : s'.balance = r.tree.balance) (hroot : s'.root = r.tree.root)
    (hfirst : s'.first = r.tree.first) (hlast : s'.last = r.tree.last)
    (hsize : s'.currentSize = r.tree.currentSize) (hitem : ∀ q ≠ n, s'.item q = r.tree.item q)
    (hlive : ∀ q ∈ r.tree.live, q ≠ n ∨ n ∈ hs → q ∈ s'.live) : Inv key ⟨s', hs⟩ S t := by
  have hout := (h.held n hn).2.2
  have hne : ∀ q ∈ t.addrs, q ≠ n := fun q hq e => hout (e ▸ hq)
  refine ⟨h.models.frame hout (fun q _ => ?_) (fun q _ => by rw [hbal]) hroot hfirst hlast hsize
    (fun q hq => hitem q (hne q hq)) fun q hq => hlive q (h.models.live q hq) (.inl (hne q hq)),
    fun m hm => ?_, h.nodup.sublist hsub⟩
  · rw [hlinks]; exact ⟨rfl, rfl, rfl⟩
  · obtain ⟨h0, hl, ho⟩ := h.held m (hsub.subset hm)
    refine ⟨h0, hlive m hl ?_, ho⟩
    by_cases e : m = n
    · exact .inr (e ▸ hm)
    · exact .inl e

theorem step_spec (op : Op α κ) : Ensures (· = .env) (step key r op) fun r' =>
      ∃ t', Inv key r' (setStep key r.tree.item S op) t' := by
  cases op with
  | insert v new =>
    exact (insert_spec h.models v new).bind fun res hres =>
      h.inserted hres (List.Sublist.refl _) fun q hq hm => hq (h.held q hm).2.1
  | emplace v new =>
    exact (emplace_spec h.models v new).bind fun res hres =>
      h.inserted hres (List.Sublist.refl _) fun q hq hm => hq (h.held q hm).2.1
  | insertNode node =>
    by_cases h0 : node = 0
    · rw [step, setStep, if_pos h0, if_pos h0]
      exact ⟨t, h⟩
    rw [step, setStep, if_neg h0, if_neg h0]
    refine (held_spec r node).bind fun _ hn => ?_
    obtain ⟨-, hlive, hout⟩ := h.held node hn
    rw [insertNode, if_pos h0]
    refine (insertHeld_spec h.models h0 hlive hout).bind fun res hres =>
      h.inserted hres erase_sublist fun q hq => ?_
    rw [hq]
    exact h.nodup.not_mem_erase
  | setValue node v =>
    refine (held_spec r node).bind fun _ hn => ⟨t, ?_⟩
    exact h.outside hn (List.Sublist.refl _) rfl rfl rfl rfl rfl rfl
      (fun q hq => Function.update_of_ne hq ..) fun q hq _ => hq
  | drop node =>
    refine (held_spec r node).bind fun _ hn => ⟨t, ?_⟩
    refine h.outside hn erase_sublist rfl rfl rfl rfl rfl rfl (fun _ _ => rfl) fun q hq hor => ?_
    rcases hor with hne | hm
    · exact (mem_erase_of_ne hne).2 hq
    · exact absurd hm h.nodup.not_mem_erase
  | erase k =>
    obtain ⟨s', n, hs', -, ⟨t', ht', hsub⟩, -, hlive⟩ := erase_spec h.models k
    rw [step, ok_bind hs']
    exact ⟨t', h.shrunk ht' hsub hlive⟩
  | eraseAt place =>
    refine (iter_spec h.models place).bind fun _ hp => ?_
    obtain ⟨A, B, haddrs⟩ := append_of_mem hp
    obtain ⟨s', t', hs', ht', haddrs', -, hlive⟩ := eraseAt_spec h.models haddrs
    rw [ok_bind hs']
    exact ⟨t', h.shrunk ht' (fun q hq => mem_of_removed haddrs (haddrs' ▸ hq))
      fun q hq hm => hlive q hq fun e => hm (e ▸ hp)⟩
  | extract k =>
    obtain ⟨s', p, hs', ⟨rfl, hk, rfl⟩ | ⟨hp, rfl, hd⟩⟩ := extract_spec h.models k
    · rw [step, ok_bind hs']
      refine ⟨t, ?_⟩
      rw [setStep, OrdSet.erase_of_not_mem hk]
      exact h
    · rw [step, ok_bind hs']
      simp only [if_neg (h.models.tree.rep.ne_zero hp)]
      exact h.detached hp hd
  | extractAt place =>
    refine (iter_spec h.models place).bind fun _ hp => ?_
    obtain ⟨s', hs', hd⟩ := extractAt_spec h.models hp
    rw [ok_bind hs']
    exact h.detached hp hd
  | clear =>
    obtain ⟨s', hs', ht', -, hlive⟩ := clear_spec h.models
    rw [step, ok_bind hs']
    exact ⟨.nil, h.shrunk ht' (fun q hq => by cases hq) hlive⟩

end

theorem Inv.start (m : St α) : Inv key (start m) OrdSet.empty .nil := by
  refine ⟨⟨⟨trivial, nodup_nil, rfl, trivial⟩, List.Pairwise.nil, rfl, rfl, rfl, fun k => ?_,
    nofun⟩, nofun, nodup_nil⟩
  exact ⟨fun hk => absurd hk not_mem_empty, nofun⟩

theorem run_inv (h : Inv key r S t) (ops : List (Op α κ)) :
    Ensures (· = .env) (run key r S ops) fun res => ∃ t', Inv key res.1 res.2 t' := by
  induction ops generalizing r S t with
  | nil => exact ⟨t, h⟩
  | cons op ops ih => exact (step_spec h op).bind fun r' ⟨_, h'⟩ => ih h'

/-! ## What the tree is for -/

/-- The shape `t` is the balanced search tree of the keys `S`. A place in it is a node `p` with
the subtrees `l` and `r`, in the hole `c` of the rest. -/
structure Wellformed (key : α → κ) (s : St α) (S : OrdSet κ) (t : Shape) : Prop where
  root : s.root = t.root
  links : ∀ (c : Hole) (l r : Shape) (p : Nat), t = c.plug (.node l p r) →
    p ≠ 0 ∧ s.left p = l.root ∧ s.right p = r.root ∧ s.parent p = c.par
  balance : ∀ (c : Hole) (l r : Shape) (p : Nat), t = c.plug (.node l p r) →
    s.balance p = (r.height 0 : Int) - l.height 0 ∧ -1 ≤ s.balance p ∧ s.balance p ≤ 1
  sorted : t.addrs.Pairwise fun p q => key (s.item p) < key (s.item q)
  first : (s.first = 0 ↔ t = .nil) ∧
    ∀ p ∈ t.addrs, s.first ∈ t.addrs ∧ key (s.item s.first) ≤ key (s.item p)
  last : (s.last = 0 ↔ t = .nil) ∧
    ∀ p ∈ t.addrs, s.last ∈ t.addrs ∧ key (s.item p) ≤ key (s.item s.last)
  size : s.currentSize = t.addrs.length
  keys : ∀ k, k ∈ S ↔ ∃ p ∈ t.addrs, key (s.item p) = k

theorem Ordered.head_le (h : Ordered key s l) (hp : p ∈ l) :
    l.head?.getD 0 ∈ l ∧ key (s.item (l.head?.getD 0)) ≤ key (s.item p) := by
  cases l with
  | nil => cases hp
  | cons a l =>
    refine ⟨mem_cons_self, ?_⟩
    rcases mem_cons.1 hp with rfl | hp
    · exact le_rfl
    · exact ((pairwise_cons.1 h).1 p hp).le

theorem Ordered.le_last (h : Ordered key s l) (hp : p ∈ l) :
    l.getLast?.getD 0 ∈ l ∧ key (s.item p) ≤ key (s.item (l.getLast?.getD 0)) := by
  rcases eq_nil_or_concat l with rfl | ⟨l, a, rfl⟩
  · cases hp
  simp only [concat_eq_append, getLast?_concat, Option.getD_some, mem_append,
    mem_singleton, or_true, true_and] at hp ⊢
  rcases hp with hp | rfl
  · rw [concat_eq_append] at h
    exact ((pairwise_append.1 h).2.2 p hp a mem_cons_self).le
  · exact le_rfl

theorem Models.wellformed (h : Models key s t S) : Wellformed key s S t := by
  have h0 : ∀ q ∈ t.addrs, q ≠ 0 := fun q hq => h.tree.rep.ne_zero hq
  have hnil : t.addrs = [] ↔ t = .nil := by cases t <;> simp
  refine ⟨h.tree.root, ?_, ?_, h.ordered, ?_, ?_, h.size, h.keys⟩
  · rintro c l r p rfl
    obtain ⟨⟨hp, hpp, hl, hr, -, -⟩, -⟩ := rep_plug.1 h.tree.rep
    exact ⟨hp, hl, hr, hpp⟩
  · rintro c l r p rfl
    have hp : p ≠ 0 := h0 p (mem_plug.2 (.inl (by simp)))
    have hc : ¬ Mem 0 c := fun hm => h0 0 (mem_plug.2 (.inr hm)) rfl
    exact ((bal_node hp).1 ((bal_plug hc).1 h.tree.bal).1).1
  · rw [h.first]
    refine ⟨⟨fun e => ?_, fun e => by rw [e]; rfl⟩, fun p hp => h.ordered.head_le hp⟩
    exact hnil.1 (by_contra fun hne => (ends_ne_zero h0 hne).1 e)
  · rw [h.last]
    refine ⟨⟨fun e => ?_, fun e => by rw [e]; rfl⟩, fun p hp => h.ordered.le_last hp⟩
    exact hnil.1 (by_contra fun hne => (ends_ne_zero h0 hne).2 e)

theorem run_wellformed (key : α → κ) (m : St α) (ops : List (Op α κ)) :
    Ensures (· = .env) (run key (start m) OrdSet.empty ops) fun res =>
      ∃ t, Wellformed key res.1.tree res.2 t :=
  (run_inv (Inv.start m) ops).mono fun _ ⟨t, h⟩ => ⟨t, h.models.wellformed⟩

/-! ## Iterators and searches -/

theorem Models.items (h : Models key s t S) : S.items = t.addrs.map fun q => key (s.item q) :=
  S.sorted.sortedLT.eq_of_mem_iff (pairwise_map.2 h.ordered).sortedLT fun k => by
    rw [mem_map]; exact h.keys k

omit [LinearOrder κ] in
/-- A search in the keys that passes over those of `A` and stops at the first of `B`. -/
theorem find_behind {A B : List Nat} {keys : List κ} {P : κ → Prop} [DecidablePred P]
    (hkeys : keys = (A ++ B).map fun q => key (s.item q)) (hA : ∀ q ∈ A, ¬ P (key (s.item q)))
    (hB : ∀ q ∈ B, P (key (s.item q)) ∧ q ∈ t.addrs) :
    (B.head?.getD 0 = 0 ∧ keys.find? (P ·) = none) ∨ (B.head?.getD 0 ∈ t.addrs ∧
      keys.find? (P ·) = some (key (s.item (B.head?.getD 0)))) := by
  rw [hkeys, map_append, find?_append, find?_eq_none.2 (by simpa using hA)]
  cases B with
  | nil => exact .inl ⟨rfl, rfl⟩
  | cons b B =>
    obtain ⟨hb, hmem⟩ := hB b mem_cons_self
    exact .inr ⟨hmem, by simp [hb]⟩

theorem treeNext_refines (h : Models key s t S) (hp : p ∈ t.addrs) :
    ∃ q, treeNext s p = .ok q ∧ ((q = 0 ∧ S.next (key (s.item p)) = none) ∨
      (q ∈ t.addrs ∧ S.next (key (s.item p)) = some (key (s.item q)))) := by
  obtain ⟨A, B, haddrs⟩ := append_of_mem hp
  obtain ⟨hnext, -⟩ := h.tree.split h.size haddrs
  obtain ⟨-, ho, hAB⟩ := pairwise_append.1 (haddrs ▸ h.ordered)
  exact ⟨_, hnext, find_behind (A := A ++ [p]) (by rw [h.items, haddrs]; simp)
    (forall_mem_append.2 ⟨fun q hq => (hAB q hq p mem_cons_self).asymm,
      forall_mem_singleton.2 (lt_irrefl _)⟩)
    fun q hq => ⟨(pairwise_cons.1 ho).1 q hq, by simp [haddrs, hq]⟩⟩

theorem treePrev_refines (h : Models key s t S) (hp : p ∈ t.addrs) :
    ∃ q, treePrev s p = .ok q ∧ ((q = 0 ∧ S.prev (key (s.item p)) = none) ∨
      (q ∈ t.addrs ∧ S.prev (key (s.item p)) = some (key (s.item q)))) := by
  obtain ⟨A, B, haddrs⟩ := append_of_mem hp
  obtain ⟨-, hprev, -⟩ := h.tree.split h.size haddrs
  obtain ⟨-, ho, hAB⟩ := pairwise_append.1 (haddrs ▸ h.ordered)
  refine ⟨_, hprev, ?_⟩
  rw [← head?_reverse]
  refine find_behind (A := (p :: B).reverse) (by rw [h.items, haddrs]; simp) (fun q hq => ?_)
    fun q hq => ?_
  · rcases mem_cons.1 (mem_reverse.1 hq) with rfl | hq
    · exact lt_irrefl _
    · exact ((pairwise_cons.1 ho).1 q hq).asymm
  · rw [mem_reverse] at hq
    exact ⟨hAB q hq p mem_cons_self, by simp [haddrs, hq]⟩

theorem lowerBound_refines (h : Models key s t S) (k : κ) :
    ∃ q, lowerBound key s k = .ok q ∧ ((q = 0 ∧ S.lowerBound k = none) ∨
      (q ∈ t.addrs ∧ S.lowerBound k = some (key (s.item q)))) := by
  rcases lowerBound_spec (k := k) h.tree h.ordered h.size with ⟨q, hq, rfl, hs⟩ | ⟨c, hp, hs⟩
  · exact ⟨q, hs, .inr ⟨hq, lowerBound_eq_some.2
      ⟨(h.keys _).2 ⟨q, hq, rfl⟩, le_rfl, fun _ _ hle => hle⟩⟩⟩
  · have haddrs : t.addrs = c.before ++ c.after := by rw [hp.plug, addrs_plug]; simp
    exact ⟨_, hs, find_behind (by rw [h.items, haddrs]) (fun q hq => (hp.before q hq).not_ge)
      fun q hq => ⟨(hp.after q hq).le, by simp [haddrs, hq]⟩⟩

/-! ## Iteration -/

/-- The nodes that a loop with `++` meets until its iterator is null.
mirrors basic_set.h:1036-1073 -/
def iterate (inc : Nat → Except Err Nat) : Nat → Nat → Except Err (List Nat)
  | fuel, curr =>
    if curr = 0 then pure []
    else match fuel with
      | 0 => throw .fuel
      | fuel + 1 => do
        let next ← inc curr
        let rest ← iterate inc fuel next
        pure (curr :: rest)

/-- From `begin()` to `end()`.
mirrors basic_set.h:1303-1306 -/
def forward (s : St α) : Except Err (List Nat) := iterate (treeNext s) s.currentSize s.first

/-- From `rbegin()` to `rend()`.
mirrors basic_set.h:1318-1321 -/
def backward (s : St α) : Except Err (List Nat) := iterate (treePrev s) s.currentSize s.last

/-- The nodes in the order of their keys are `l`: both loops meet them all, and a search answers
the least that is not less than the key, or the end. -/
structure Iterates (key : α → κ) (s : St α) (S : OrdSet κ) (l : List Nat) : Prop where
  keys : l.map (fun p => key (s.item p)) = S.items
  forward : forward s = .ok l
  backward : backward s = .ok l.reverse
  lowerBound : ∀ k, ∃ q, lowerBound key s k = .ok q ∧ ((q = 0 ∧ ∀ x ∈ S, x < k) ∨
    (q ∈ l ∧ k ≤ key (s.item q) ∧ ∀ x ∈ S, k ≤ x → key (s.item q) ≤ x))

theorem iterate_eq {inc : Nat → Except Err Nat} (h0 : ∀ p ∈ l, p ≠ 0)
    (hinc : ∀ A p B, l = A ++ p :: B → inc p = .ok (B.head?.getD 0)) :
    iterate inc l.length (l.head?.getD 0) = .ok l := by
  induction l with
  | nil => rfl
  | cons p l ih =>
    obtain ⟨hp, hl⟩ := forall_mem_cons.1 h0
    have hrest := ih hl fun A q B e => hinc (p :: A) q B (congrArg (cons p) e)
    rw [length_cons, head?_cons, Option.getD_some, iterate, if_neg hp, ok_bind (hinc [] p l rfl)]
    exact ok_bind hrest _

theorem Models.iterates (h : Models key s t S) : Iterates key s S t.addrs := by
  have h0 : ∀ p ∈ t.addrs, p ≠ 0 := fun p hp => h.tree.rep.ne_zero hp
  refine ⟨h.items.symm, ?_, ?_, fun k => ?_⟩
  · rw [forward, h.first, h.size]
    exact iterate_eq h0 fun A p B e => (h.tree.split h.size e).1
  · rw [backward, h.last, h.size, ← head?_reverse, ← length_reverse]
    refine iterate_eq (fun p hp => h0 p (mem_reverse.1 hp)) fun A p B e => ?_
    have haddrs : t.addrs = B.reverse ++ p :: A.reverse := by rw [← reverse_reverse t.addrs, e]; simp
    rw [(h.tree.split h.size haddrs).2.1, getLast?_reverse]
  · obtain ⟨q, hq, ⟨h1, h2⟩ | ⟨h1, h2⟩⟩ := lowerBound_refines h k
    · exact ⟨q, hq, .inl ⟨h1, lowerBound_eq_none.1 h2⟩⟩
    · exact ⟨q, hq, .inr ⟨h1, (lowerBound_eq_some.1 h2).2⟩⟩

/-- **Iteration.** In every state of a run the iterators meet the nodes in order. `erase` answers
the node behind the one that it takes out, and leaves the others where they were. -/
theorem iterators_right (key : α → κ) (m : St α) (ops : List (Op α κ)) :
    Ensures (· = .env) (run key (start m) OrdSet.empty ops) fun res =>
      ∃ l, Iterates key res.1.tree res.2 l ∧ ∀ A p B, l = A ++ p :: B →
        ∃ s', eraseAt res.1.tree p = .ok (s', B.head?.getD 0) ∧ s'.item = res.1.tree.item ∧
          Iterates key s' (res.2.erase (key (res.1.tree.item p))) (A ++ B) := by
  refine (run_inv (Inv.start m) ops).mono fun res ⟨t, h⟩ => ⟨t.addrs, h.models.iterates, ?_⟩
  intro A p B haddrs
  obtain ⟨s', t', hs', ht', haddrs', hitem, -⟩ := eraseAt_spec h.models haddrs
  exact ⟨s', hs', hitem, haddrs' ▸ ht'.iterates⟩

/-- **Searches are short.** In a tree with `n` nodes a search looks at no more than `h` of them, if
`n + 1` is below the Fibonacci number `fib (h + 3)`. -/
theorem search_short (key : α → κ) (m : St α) (ops : List (Op α κ)) :
    Ensures (· = .env) (run key (start m) OrdSet.empty ops) fun res => ∀ k h,
      res.1.tree.currentSize + 1 < Nat.fib (h + 3) →
      findLoop key res.1.tree k h res.1.tree.root = treeFind key res.1.tree k := by
  refine (run_inv (Inv.start m) ops).mono fun res ⟨t, hi⟩ k h hlt => ?_
  obtain ⟨ht, -, -, -, hsize, -, -⟩ := hi.models
  have hfib := ht.bal.fib_le fun h0 => ht.rep.ne_zero h0 rfl
  have hh : t.height 0 + 2 < h + 3 := Nat.fib_mono.reflect_lt (by omega)
  have hn := Nat.le_fib_add_one (t.height 0 + 2)
  rw [treeFind, ht.root]
  exact findLoop_height ht.rep (by omega) (by rw [St.steps]; omega)

end Dgos.L1.BasicTree
