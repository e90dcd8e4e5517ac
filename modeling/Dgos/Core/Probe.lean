import Mathlib

/-!
# Probing along an orbit, and around a ring of slots

`probe next stop n a` is the loop that looks at `a`, `next a`, … and stops at the first one
`stop` accepts, after `n` at the latest. In a ring of `n` slots `next` is the successor modulo
`n`; `Reaches n occ h s` says that the slots met on the way from `h` to `s` are occupied,
which is what open addressing keeps true of every stored item.
-/
namespace Dgos

open List

variable {α : Type}

def probe (next : α → α) (stop : α → Bool) : Nat → α → Option α
  | 0, _ => none
  | n + 1, a => if stop a then some a else probe next stop n (next a)

section Probe

variable {next : α → α} {stop : α → Bool}

theorem probe_eq_find? (n : Nat) (a : α) : probe next stop n a = (iterate next a n).find? stop := by
  induction n generalizing a with
  | zero => rfl
  | succ n ih => rw [probe, iterate, find?_cons, ih]; cases stop a <;> rfl

theorem probe_eq_some {n : Nat} {a b : α} (h : probe next stop n a = some b) :
    ∃ d < n, next^[d] a = b ∧ stop b = true ∧ ∀ d' < d, stop (next^[d'] a) = false := by
  rw [probe_eq_find?, find?_eq_some_iff_getElem] at h
  obtain ⟨hb, d, hd, hdb, hbefore⟩ := h
  exact ⟨d, by simpa using hd, by simpa using hdb, hb, fun d' hd' => by simpa using hbefore d' hd'⟩

theorem probe_isSome {n d : Nat} {a : α} (hd : d < n) (hstop : stop (next^[d] a) = true) :
    ∃ b, probe next stop n a = some b := by
  rw [probe_eq_find?, ← Option.isSome_iff_exists, find?_isSome]
  exact ⟨_, mem_iterate.2 ⟨d, hd, rfl⟩, hstop⟩

end Probe

/-! ## A ring of slots -/

theorem ring_iterate {n h : Nat} (hh : h < n) {next : Nat → Nat}
    (hnext : ∀ i < n, next i = (i + 1) % n) (d : Nat) : next^[d] h = (h + d) % n := by
  induction d with
  | zero => exact (Nat.mod_eq_of_lt hh).symm
  | succ d ih =>
    rw [Function.iterate_succ_apply', ih, hnext _ (Nat.mod_lt _ (Nat.zero_lt_of_lt hh)),
      Nat.mod_add_mod, Nat.add_assoc]

/-- Going round from `h`, every slot before `s` is occupied. -/
def Reaches (n : Nat) (occ : Nat → Prop) (h s : Nat) : Prop :=
  ∃ d < n, (h + d) % n = s ∧ ∀ d' < d, occ ((h + d') % n)

namespace Reaches

variable {n h s : Nat} {occ occ' : Nat → Prop}

theorem mono (hr : Reaches n occ h s) (hsub : ∀ i, occ i → occ' i) : Reaches n occ' h s := by
  obtain ⟨d, hd, hs, hocc⟩ := hr
  exact ⟨d, hd, hs, fun d' hd' => hsub _ (hocc d' hd')⟩

/-- A slot may be vacated when the slot behind it is vacant: it is then on nobody's way. -/
theorem vacate (hr : Reaches n occ h s) {v : Nat} (hs : occ s) (hv : ¬ occ ((v + 1) % n)) :
    Reaches n (fun i => occ i ∧ i ≠ v) h s := by
  obtain ⟨d, hd, hds, hocc⟩ := hr
  refine ⟨d, hd, hds, fun d' hd' => ⟨hocc d' hd', fun heq => hv ?_⟩⟩
  have hnext : (v + 1) % n = (h + (d' + 1)) % n := by
    rw [← heq, Nat.mod_add_mod, Nat.add_assoc]
  rw [hnext]
  rcases lt_or_ge (d' + 1) d with hlt | hge
  · exact hocc _ hlt
  · rwa [show d' + 1 = d by omega, hds]

end Reaches

/-! ## Counting slots -/

/-- Among `m` slots in a row one is not counted, if fewer than `m` are. -/
theorem exists_not_counted {p : α → Bool} {l : List α} {m : Nat} (dflt : α) (h : Nat)
    (hm : m ≤ l.length) (hcount : l.countP p < m) :
    ∃ d < m, p (l.getD ((h + d) % l.length) dflt) = false := by
  by_contra hall
  push Not at hall
  have hp : ∀ a ∈ (l.rotate h).take m, p a := fun a ha => by
    obtain ⟨d, hd, rfl⟩ := mem_iff_getElem.1 ha
    have hlt : (h + d) % l.length < l.length := Nat.mod_lt _ (by simp at hd; omega)
    simpa [getElem_rotate, Nat.add_comm d, getElem?_eq_getElem hlt] using hall d (by simp at hd; omega)
  have hle := (take_sublist m (l.rotate h)).countP_le (p := p)
  rw [countP_eq_length.2 hp, (rotate_perm l h).countP_eq, length_take, length_rotate] at hle
  omega

end Dgos
