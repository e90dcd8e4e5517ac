import Dgos.Core.Bytes

/-!
# FAT32 files

A file is a list of clusters, linked through the low 28 bits of the FAT entries, and a size.
Its contents are the bytes of the clusters one behind the other, up to the size.
-/
namespace Dgos.L3.Fat

open List Finset

/-- The upper four bits of a FAT entry are reserved. -/
def link (entry : Nat) : Nat := entry % 2 ^ 28

/-- An `int32_t`, given by its bits, as `uint64_t`. -/
def signExtend (n : Nat) : Nat := if n < 2 ^ 31 then n else n + (2 ^ 64 - 2 ^ 32)

/-- A cluster number that can be in a chain; `0x0FFFFFF7` marks a bad cluster. -/
def IsCluster (c : Nat) : Prop := 2 ≤ c ∧ c < 0x0FFFFFF7

/-- Each cluster's FAT entry names the next one, and the last one's is an end mark. -/
def Linked (fat : Nat → Nat) : List Nat → Prop
  | [] => False
  | [c] => IsCluster c ∧ 0x0FFFFFF8 ≤ link (fat c)
  | c :: d :: l => IsCluster c ∧ link (fat c) = d ∧ Linked fat (d :: l)

/-- A file on a volume with blocks (clusters) of `block` bytes. A file without clusters has
start cluster 0. -/
structure File (fat : Nat → Nat) (block : Nat) where
  chain : List Nat
  size : Nat
  linked : chain = [] ∨ Linked fat chain
  size_le : size ≤ chain.length * block
  size_lt : size < 2 ^ 32

def File.start {fat : Nat → Nat} {block : Nat} (f : File fat block) : Nat := f.chain.headD 0

/-- The byte at each offset of a chain; `bytes c o` is byte `o` of cluster `c`. -/
def contents (chain : List Nat) (block : Nat) (bytes : Nat → Nat → UInt8) : Buf := fun i =>
  bytes (chain.getD (i / block) 0) (i % block)

namespace Linked

variable {fat : Nat → Nat} {l : List Nat}

theorem isCluster (h : Linked fat l) : ∀ c ∈ l, IsCluster c := by
  induction l with
  | nil => exact absurd h id
  | cons c l ih =>
    cases l with
    | nil => exact forall_mem_singleton.2 h.1
    | cons d l => exact forall_mem_cons.2 ⟨h.1, ih h.2.2⟩

theorem tail {c d : Nat} (h : Linked fat (c :: d :: l)) : Linked fat (d :: l) := h.2.2

theorem link_lt {c d : Nat} (h : Linked fat (c :: d :: l)) : link (fat c) < 0x0FFFFFF8 := by
  have := (h.tail.isCluster d mem_cons_self).2
  rw [h.2.1]
  omega

theorem unique {c : Nat} {l' : List Nat} (h : Linked fat (c :: l)) (h' : Linked fat (c :: l')) :
    l = l' := by
  induction l generalizing c l' with
  | nil =>
    cases l' with
    | nil => rfl
    | cons d l' => exact absurd h.2 (Nat.not_le.2 h'.link_lt)
  | cons d l ih =>
    cases l' with
    | nil => exact absurd h'.2 (Nat.not_le.2 h.link_lt)
    | cons e l' =>
      obtain rfl : d = e := h.2.1.symm.trans h'.2.1
      rw [ih h.tail h'.tail]

theorem suffix {a : List Nat} (h : Linked fat (a ++ l)) (hl : l ≠ []) : Linked fat l := by
  induction a with
  | nil => exact h
  | cons c a ih =>
    cases a with
    | nil =>
      cases l with
      | nil => exact absurd rfl hl
      | cons d l => exact h.tail
    | cons d a => exact ih h.tail

theorem nodup (h : Linked fat l) : l.Nodup := by
  induction l with
  | nil => exact nodup_nil
  | cons c l ih =>
    rw [nodup_cons]
    constructor
    · -- a cluster that came again would be followed by the same clusters again
      intro hmem
      obtain ⟨a, b, rfl⟩ := append_of_mem hmem
      have hsuf : Linked fat (c :: b) := suffix (a := c :: a) h (cons_ne_nil c b)
      have := congrArg List.length (unique h hsuf)
      simp only [length_append, length_cons] at this
      omega
    · cases l with
      | nil => exact nodup_nil
      | cons d l => exact ih h.tail

theorem length_lt (h : Linked fat l) : l.length < 2 ^ 28 := by
  have hsub : l.toFinset ⊆ range 0x0FFFFFF7 := by
    intro c hc
    exact Finset.mem_range.mpr (h.isCluster c (mem_toFinset.mp hc)).2
  have := card_le_card hsub
  rw [toFinset_card_of_nodup h.nodup, card_range] at this
  omega

theorem link_getD (h : Linked fat l) {k : Nat} (hk : k + 1 < l.length) :
    link (fat (l.getD k 0)) = l.getD (k + 1) 0 := by
  induction l generalizing k with
  | nil => exact absurd h id
  | cons c l ih =>
    cases l with
    | nil => exact absurd hk (by simp)
    | cons d l =>
      cases k with
      | zero => exact h.2.1
      | succ k => exact ih h.tail (Nat.lt_of_succ_lt_succ hk)

theorem ne_nil (h : Linked fat l) : l ≠ [] := by
  rintro rfl
  exact h

end Linked

end Dgos.L3.Fat
