import Dgos.Core.Ring

/-!
# The wait chain of the sleeping locks (kernel/lib/threadsync.cc)

A lock keeps the threads that wait for it on a ring of `thread_wait_link_t` that starts at a
link of the lock itself. The other links are inside `thread_wait_t` records, each on the stack
of the thread that waits. A link is named by its address; `none` is the null pointer, and a
read through it stops.

Results:
* `Waits.add`: `thread_wait_add` puts a record on the chain.
* `Waits.first`: the first record, if there is one, is taken off by `thread_wait_del`, which
  clears its links.
-/
namespace Dgos.L5.WaitChain

open List

/-- mirrors threadsync.cc:16-24 -/
def threadWaitAdd (k : ListLinks Nat) (root node : Nat) : Option (ListLinks Nat) := do
  let insafter ← k.prev root
  return (((k.setNext node (some root)).setPrev node (some insafter)).setNext insafter
    (some node)).setPrev root (some node)

/-- mirrors threadsync.cc:26-36 -/
def threadWaitDel (k : ListLinks Nat) (node : Nat) : Option (Nat × ListLinks Nat) := do
  let next ← k.next node
  let prev ← k.prev node
  return (next, (((k.setNext prev (some next)).setPrev next (some prev)).setNext node
    none).setPrev node none)

variable {k k' : ListLinks Nat} {root node : Nat} {on on' : Nat → Prop}

/-- The chain at `root` holds exactly the records in `on`. -/
def Waits (k : ListLinks Nat) (root : Nat) (on : Nat → Prop) : Prop :=
  ∃ l, Ring k root l ∧ ∀ w, w ∈ l ↔ on w

/-- The links of every record in `cells` are as they were. -/
def Kept (k k' : ListLinks Nat) (cells : Nat → Prop) : Prop :=
  ∀ c, cells c → k'.next c = k.next c ∧ k'.prev c = k.prev c

namespace Waits

theorem congr (h : Waits k root on) (ho : ∀ w, on w ↔ on' w) : Waits k root on' := by
  obtain ⟨l, hl, hmem⟩ := h
  exact ⟨l, hl, fun w => (hmem w).trans (ho w)⟩

theorem frame (h : Waits k root on) (hk : Kept k k' fun c => c = root ∨ on c) :
    Waits k' root on := by
  obtain ⟨l, hl, hmem⟩ := h
  have hcell : ∀ c ∈ root :: l, c = root ∨ on c := fun c hc =>
    (mem_cons.1 hc).imp_right (hmem c).1
  exact ⟨l, hl.frame (fun c hc => (hk c (hcell c hc)).1) fun c hc => (hk c (hcell c hc)).2, hmem⟩

theorem add (h : Waits k root on) (hr : node ≠ root) (hn : ¬ on node) :
    ∃ k', threadWaitAdd k root node = some k' ∧ Waits k' root (fun w => on w ∨ w = node) ∧
      Kept k k' fun c => c ≠ root ∧ ¬ on c ∧ c ≠ node := by
  obtain ⟨l, hl, hmem⟩ := h
  obtain ⟨p, hpm, hp⟩ := hl.path.exists_prev
  have hout : node ∉ root :: l := by
    rw [mem_cons, hmem]
    exact fun h => h.elim hr hn
  refine ⟨_, by rw [threadWaitAdd, hp]; rfl, ⟨l ++ [node], hl.insert hout hp, ?_⟩, ?_⟩
  · intro w
    rw [mem_append, mem_singleton, hmem]
  · rintro c ⟨hcr, hc, hcn⟩
    have hcp : c ≠ p := by
      rintro rfl
      exact (mem_cons.1 hpm).elim hcr fun h => hc ((hmem c).1 h)
    simp [hcr, hcn, hcp]

theorem first (h : Waits k root on) : ∃ f, k.next root = some f ∧
    ((f = root ∧ ∀ w, ¬ on w) ∨ f ≠ root ∧ on f ∧ ∃ n k', threadWaitDel k f = some (n, k') ∧
      Waits k' root (fun w => on w ∧ w ≠ f) ∧ k'.next f = none ∧ k'.prev f = none ∧
      Kept k k' fun c => c ≠ root ∧ ¬ on c) := by
  obtain ⟨l, hl, hmem⟩ := h
  refine ⟨_, hl.path.next_eq, ?_⟩
  cases l with
  | nil => exact .inl ⟨rfl, fun w hw => nomatch (hmem w).2 hw⟩
  | cons f l =>
    have hf : f ≠ root := fun e => hl.root_not_mem (e ▸ mem_cons_self)
    obtain ⟨hp1, hp2⟩ := hl.path
    obtain ⟨n, hnm, hn⟩ := hp2.exists_next
    have hfl : f ∉ l := (nodup_cons.1 (nodup_cons.1 hl.nodup).2).1
    refine .inr ⟨hf, (hmem f).1 mem_cons_self, n, _, by
      rw [threadWaitDel, headD_cons, hn, hp1.2]; rfl,
      ⟨l, Ring.remove (show Ring k root ([] ++ f :: l) from hl) hn hp1.2, ?_⟩, by simp, by simp, ?_⟩
    · intro w
      show w ∈ l ↔ on w ∧ w ≠ f
      rw [← hmem, mem_cons]
      constructor
      · exact fun hw => ⟨.inr hw, fun e => hfl (e ▸ hw)⟩
      · exact fun ⟨hw, hne⟩ => hw.resolve_left hne
    · rintro c ⟨hcr, hc⟩
      have hcl : c ∉ f :: l := fun h => hc ((hmem c).1 h)
      have hcf : c ≠ f := fun e => hcl (e ▸ mem_cons_self)
      have hcn : c ≠ n := by
        rintro rfl
        rcases mem_append.1 hnm with h | h
        · exact hcl (mem_cons_of_mem f h)
        · exact hcr (mem_singleton.1 h)
      simp [hcr, hcn, hcf]

end Waits

end Dgos.L5.WaitChain
