import Dgos.Core.Chain
import Dgos.L2Memory.PhysAlloc

/-!
# Pages as a stack and reference counts

What the physical page allocator is for: a stack of free pages and a number of references for
every page in use. `Pool` is that, together with the pages `alloc_multiple` has taken off the
chain and not handed out yet; `Refines` connects it to the words of the allocator. Every function
of the source has one lemma: which change of the pool it makes, and that it leaves the words of
the pages on their way to a callback alone.
-/
namespace Dgos.L2.PhysAlloc

open List Function Nat Cfg

/-- What the counters and addresses of the allocator can express. -/
structure Cfg.Ok (c : Cfg) : Prop where
  pages : c.highestUsable ≤ 2 ^ 31
  begin : 0 < c.begin
  space : c.begin + c.highestUsable * c.pagesz < 2 ^ 64

/-! ## Words -/

def toLink (word : Nat) : Option Nat := if word = endMark then none else some word

def St.link (st : St) (page : Nat) : Option Nat := toLink (st.entries page)

variable {w r : Nat} {l : List Nat}

theorem toLink_eq_none (h : toLink w = none) : w = endMark := by
  by_contra hne
  rw [toLink, if_neg hne] at h
  cases h

theorem toLink_eq_some {q : Nat} (h : toLink w = some q) : w = q ∧ q ≠ endMark := by
  by_cases hw : w = endMark
  · rw [toLink, if_pos hw] at h
    cases h
  · rw [toLink, if_neg hw] at h
    cases h
    exact ⟨rfl, hw⟩

theorem isUsed_of_lt (h : w < 2 ^ 31) : isUsed w = false := testBit_lt_two_pow h

theorem isUsed_endMark : isUsed endMark = true := by decide

theorem one_or_usedMask : 1 ||| usedMask = usedMask + 1 := by decide

/-! ## The pool -/

structure Pool where
  /-- The free pages; the first is the next to be allocated. -/
  free : List Nat
  /-- Taken off the chain by `alloc_multiple` and not handed out yet. -/
  out : List Nat
  refs : Nat → Nat
  added : Nat → Bool
  /-- How often `alloc_one` has found a page. -/
  ones : Nat

namespace Pool

def init : Pool := ⟨[], [], fun _ => 0, fun _ => false, 0⟩

/-- A new page on top of the stack. -/
def push (p : Pool) (q : Nat) : Pool :=
  { p with free := q :: p.free, added := update p.added q true }

/-- The pages from `lo` on, the last one first. -/
def add (p : Pool) (lo : Nat) : Nat → Pool
  | 0 => p
  | n + 1 => (p.push (lo + n)).add lo n

def allocOne (p : Pool) : Pool :=
  match p.free with
  | [] => p
  | q :: l => { p with free := l, refs := update p.refs q 1, ones := p.ones + 1 }

def addref (p : Pool) (q : Nat) : Pool :=
  { p with refs := update p.refs q (p.refs q + 1) }

def release (p : Pool) (q : Nat) : Pool :=
  { p with
    free := if p.refs q = 1 then q :: p.free else p.free
    refs := update p.refs q (p.refs q - 1) }

def releaseAll (p : Pool) (l : List Nat) : Pool := l.foldl release p

def detach (p : Pool) (n : Nat) : Pool := { p with free := p.free.drop n, out := p.free.take n }

/-- The next page on its way out gets its first reference. -/
def take (p : Pool) : Pool :=
  match p.out with
  | [] => p
  | q :: l => { p with out := l, refs := update p.refs q 1 }

end Pool

structure Refines (c : Cfg) (st : St) (p : Pool) : Prop where
  chain : Chain st.link (toLink st.nextFree) p.free
  used : ∀ q, p.refs q ≠ 0 → st.entries q = usedMask + p.refs q
  fresh : ∀ q, p.added q = false → st.entries q = endMark
  count : st.freePageCount = (p.free.length + p.ones) % 2 ^ 32
  nodup : (p.free ++ p.out).Nodup
  held : ∀ q, p.refs q ≠ 0 → q ∉ p.free ∧ q ∉ p.out
  owned : ∀ q, p.added q = true ↔ q ∈ p.free ∨ q ∈ p.out ∨ p.refs q ≠ 0
  bound : ∀ q, p.added q = true → q < c.highestUsable
  small : ∀ q, p.refs q < 2 ^ 31

theorem refines_init (c : Cfg) : Refines c .init .init where
  chain := rfl
  used q h := absurd rfl h
  fresh _ _ := rfl
  count := rfl
  nodup := nodup_nil
  held q h := absurd rfl h
  owned q := by simp [Pool.init]
  bound q h := by cases h
  small _ := Nat.two_pow_pos 31

/-- A change of the allocator that leaves the pages on their way out alone. -/
structure Kept (c : Cfg) (st : St) (p : Pool) (st' : St) (p' : Pool) : Prop where
  refines : Refines c st' p'
  out : p'.out = p.out
  entries : ∀ q ∈ p.out, st'.entries q = st.entries q

variable {c : Cfg} {st : St} {p : Pool} {q addr n : Nat}

theorem Kept.trans {st' st'' : St} {p' p'' : Pool} (h : Kept c st p st' p')
    (h' : Kept c st' p' st'' p'') : Kept c st p st'' p'' := by
  refine ⟨h'.refines, h'.out.trans h.out, fun q hq => ?_⟩
  rw [h'.entries q (by rwa [h.out]), h.entries q hq]

/-- A range of whole pages inside the allocator, none of which it has. -/
structure NewRange (c : Cfg) (p : Pool) (base size : Nat) : Prop where
  begin : c.begin ≤ base
  aligned : (base - c.begin) % c.pagesz = 0
  whole : size % c.pagesz = 0
  inside : c.index base + size / c.pagesz ≤ c.highestUsable
  fresh : ∀ q, c.index base ≤ q → q < c.index base + size / c.pagesz → p.added q = false

/-- Every page of a list of addresses has as many references as the list mentions it. -/
structure Held (c : Cfg) (p : Pool) (l : List Nat) : Prop where
  begin : ∀ a ∈ l, c.begin ≤ a
  refs : ∀ q, (l.map c.index).count q ≤ p.refs q

theorem Held.perm {l' : List Nat} (h : Held c p l) (hp : l'.Perm l) : Held c p l' :=
  ⟨fun a ha => h.begin a (hp.mem_iff.1 ha), fun q => by
    rw [(hp.map c.index).count_eq]
    exact h.refs q⟩

theorem indexFromAddr_ok (hbegin : c.begin ≤ addr) : c.indexFromAddr addr = .ok (c.index addr) :=
  if_pos hbegin

theorem flushOrder_perm (l : List Nat) : (flushOrder l).Perm l := by
  unfold flushOrder
  split
  · split
    · exact List.Perm.refl _
    · exact reverse_perm _
  · exact List.Perm.refl _

variable (hc : c.Ok) (h : Refines c st p)
include h

theorem Kept.refl : Kept c st p st p :=
  ⟨h, rfl, fun _ _ => rfl⟩

namespace Refines

theorem lt_of_free (hq : q ∈ p.free) : q < c.highestUsable :=
  h.bound q ((h.owned q).2 (.inl hq))

theorem lt_of_refs (hq : p.refs q ≠ 0) : q < c.highestUsable :=
  h.bound q ((h.owned q).2 (.inr (.inr hq)))

/-- A page without references that was added is free, unless it is on its way out. -/
theorem mem_free_iff (hout : p.out = []) (hq : p.added q = true) : q ∈ p.free ↔ p.refs q = 0 := by
  constructor
  · intro hf
    by_contra hr
    exact (h.held q hr).1 hf
  · intro hr
    obtain hf | ho | hn := (h.owned q).1 hq
    · exact hf
    · rw [hout] at ho
      cases ho
    · exact absurd hr hn

end Refines

/-! ## The two changes of a word -/

/-- A page that is not free (any more) gets the number of its references in its word. -/
theorem Refines.hold {q w ones : Nat} {free out : List Nat} (hr : r ≠ 0)
    (hsmall : r < 2 ^ 31) (hadded : p.added q = true) (hq : q ∉ free ∧ q ∉ out)
    (hchain : Chain st.link (toLink w) free) (hnd : (free ++ out).Nodup)
    (hmem : ∀ x ≠ q, (x ∈ free ∨ x ∈ out ↔ x ∈ p.free ∨ x ∈ p.out))
    (hcount : p.free.length + p.ones = free.length + ones) :
    Refines c ⟨update st.entries q (usedMask + r), w, st.freePageCount⟩
      ⟨free, out, update p.refs q r, p.added, ones⟩ where
  chain := hchain.frame fun x hx => by
    simp only [St.link]
    rw [update_of_ne (ne_of_mem_of_not_mem hx hq.1)]
  used x hx := by
    by_cases hxq : x = q
    · subst hxq
      simp
    · simp only [update_of_ne hxq] at hx ⊢
      exact h.used x hx
  fresh x hx := by
    have hxq : x ≠ q := by
      rintro rfl
      rw [hadded] at hx
      cases hx
    simp only [update_of_ne hxq]
    exact h.fresh x hx
  count := by rw [← hcount]; exact h.count
  nodup := hnd
  held x hx := by
    by_cases hxq : x = q
    · subst hxq
      exact hq
    · simp only [update_of_ne hxq] at hx
      obtain ⟨hf, ho⟩ := h.held x hx
      have hnot : ¬ (x ∈ free ∨ x ∈ out) := fun hin => (hmem x hxq).1 hin |>.elim hf ho
      exact not_or.1 hnot
  owned x := by
    by_cases hxq : x = q
    · subst hxq
      simp [hadded, hr]
    · simp only [update_of_ne hxq]
      rw [h.owned x, ← or_assoc, ← or_assoc, hmem x hxq]
  bound := h.bound
  small := (forall_update_iff _ fun _ r => r < 2 ^ 31).2 ⟨hsmall, fun x _ => h.small x⟩

theorem take_ok (hout : p.out = q :: l) : Refines c (st.setEntry q (usedMask + 1)) p.take := by
  have hnd := h.nodup
  rw [hout, nodup_append] at hnd
  obtain ⟨hnf, hno, hdis⟩ := hnd
  rw [nodup_cons] at hno
  have hqf : q ∉ p.free := fun hin => hdis q hin q mem_cons_self rfl
  rw [Pool.take, hout]
  refine h.hold Nat.one_ne_zero (by decide) ((h.owned q).2 (.inr (.inl (by simp [hout]))))
    ⟨hqf, hno.1⟩ h.chain ?_ (fun x hx => by simp [hout, hx]) rfl
  rw [nodup_append]
  exact ⟨hnf, hno.2, fun a ha b hb => hdis a ha b (mem_cons_of_mem q hb)⟩

/-- A page in use keeps some references. -/
theorem Refines.rehold (hrefs : p.refs q ≠ 0) (hr : r ≠ 0) (hsmall : r < 2 ^ 31) :
    Kept c st p (st.setEntry q (usedMask + r)) { p with refs := update p.refs q r } where
  refines := h.hold hr hsmall ((h.owned q).2 (.inr (.inr hrefs))) (h.held q hrefs) h.chain h.nodup
    (fun _ _ => Iff.rfl) rfl
  out := rfl
  entries _ hx := update_of_ne (ne_of_mem_of_not_mem hx (h.held q hrefs).2) _ _

include hc

/-- A page that is nowhere gets the link to the chain in its word, and comes first on it. -/
theorem Refines.link (hq : q ∉ p.free ∧ q ∉ p.out) (hlt : q < c.highestUsable) :
    Refines c ⟨update st.entries q st.nextFree, q, (st.freePageCount + 1) % 2 ^ 32⟩
      ⟨q :: p.free, p.out, update p.refs q 0, update p.added q true, p.ones⟩ where
  chain := by
    have hpages := hc.pages
    have hself : toLink q = some q := if_neg (by simp only [endMark]; omega)
    have hlink : St.link ⟨update st.entries q st.nextFree, q,
        (st.freePageCount + 1) % 2 ^ 32⟩ = update st.link q (toLink st.nextFree) := by
      funext x
      by_cases hxq : x = q
      · subst hxq
        simp [St.link]
      · simp [St.link, update_of_ne hxq]
    rw [hlink, hself]
    exact h.chain.push hq.1
  used x hx := by
    have hxq : x ≠ q := by
      rintro rfl
      simp at hx
    simp only [update_of_ne hxq] at hx ⊢
    exact h.used x hx
  fresh x hx := by
    have hxq : x ≠ q := by
      rintro rfl
      simp at hx
    simp only [update_of_ne hxq] at hx ⊢
    exact h.fresh x hx
  count := by
    show (st.freePageCount + 1) % 2 ^ 32 = (p.free.length + 1 + p.ones) % 2 ^ 32
    rw [h.count]
    omega
  nodup := by
    rw [cons_append, nodup_cons, mem_append, not_or]
    exact ⟨hq, h.nodup⟩
  held x hx := by
    have hxq : x ≠ q := by
      rintro rfl
      simp at hx
    simp only [update_of_ne hxq] at hx
    simp only [mem_cons, not_or]
    exact ⟨⟨hxq, (h.held x hx).1⟩, (h.held x hx).2⟩
  owned x := by
    by_cases hxq : x = q
    · subst hxq
      simp
    · simp only [update_of_ne hxq, mem_cons, hxq, false_or]
      exact h.owned x
  bound := (forall_update_iff _ fun x b => b = true → x < c.highestUsable).2
    ⟨fun _ => hlt, fun x _ => h.bound x⟩
  small := (forall_update_iff _ fun _ r => r < 2 ^ 31).2 ⟨by decide, fun x _ => h.small x⟩

/-! ## Single pages -/

/-- The word of a page that comes first on a chain, and the assertion about the word behind it. -/
theorem chain_cons {w : Nat} (hchain : Chain st.link (toLink w) (q :: l))
    (hl : ∀ x ∈ q :: l, x ∈ p.free) :
    w = q ∧ w ≠ endMark ∧ w < c.highestUsable ∧
      (st.entries w = endMark ∨ isUsed (st.entries w) = false) := by
  obtain ⟨hw, hrest⟩ := hchain
  obtain ⟨rfl, hend⟩ := toLink_eq_some hw
  refine ⟨rfl, hend, h.lt_of_free (hl w mem_cons_self), ?_⟩
  cases l with
  | nil => exact .inl (toLink_eq_none hrest)
  | cons x l =>
    obtain ⟨hx, -⟩ := toLink_eq_some hrest.1
    have hlt := h.lt_of_free (hl x (by simp))
    have hpages := hc.pages
    exact .inr (isUsed_of_lt (by omega))

omit hc in
theorem allocOne_nil (hfree : p.free = []) : c.allocOne st = .ok (0, st) := by
  have hchain := h.chain
  rw [hfree] at hchain
  exact if_pos (toLink_eq_none hchain)

theorem allocOne_cons (hfree : p.free = q :: l) :
    ∃ st', c.allocOne st = .ok (c.addrFromIndex q, st') ∧ Kept c st p st' p.allocOne := by
  have hchain := h.chain
  rw [hfree] at hchain
  obtain ⟨hw, hend, hlt, hassert⟩ := chain_cons hc h hchain fun x hx => by rwa [hfree]
  have hnd := h.nodup
  rw [hfree, cons_append, nodup_cons, mem_append, not_or] at hnd
  obtain ⟨hq, hnd⟩ := hnd
  have hcount : p.free.length + p.ones = l.length + (p.ones + 1) := by
    rw [hfree, length_cons]
    omega
  have hhold := h.hold Nat.one_ne_zero (by decide) ((h.owned q).2 (.inl (by simp [hfree]))) hq
    hchain.2 hnd (fun x hx => by simp [hfree, hx]) hcount
  refine ⟨⟨update st.entries q (usedMask + 1), st.entries q, st.freePageCount⟩, ?_, ?_, ?_, ?_⟩
  · rw [allocOne, if_neg hend, if_pos hlt, if_pos hassert, hw]
    rfl
  · rw [Pool.allocOne, hfree]
    exact hhold
  · rw [Pool.allocOne, hfree]
  · intro x hx
    exact update_of_ne (ne_of_mem_of_not_mem hx hq.2) _ _

omit hc in
theorem isUsed_of_refs (hrefs : p.refs q ≠ 0) : isUsed (st.entries q) = true := by
  rw [h.used q hrefs, isUsed, usedMask, testBit_two_pow_add_eq, testBit_lt_two_pow (h.small q)]
  rfl

section

variable (hbegin : c.begin ≤ addr) (hrefs : p.refs (c.index addr) ≠ 0)
include hbegin hrefs

theorem addref_ok (hmore : p.refs (c.index addr) + 1 < 2 ^ 31) :
    ∃ st', c.addref st addr = .ok st' ∧ Kept c st p st' (p.addref (c.index addr)) := by
  have hlt := h.lt_of_refs hrefs
  have hpages := hc.pages
  have hindex : ((· % 2 ^ 32) <$> c.indexFromAddr addr) = (.ok (c.index addr) : Except Err Nat) := by
    rw [indexFromAddr_ok hbegin]
    exact congrArg Except.ok (mod_eq_of_lt (by omega))
  have hword : (st.entries (c.index addr) + 1) % 2 ^ 32 =
      usedMask + (p.refs (c.index addr) + 1) := by
    rw [h.used _ hrefs, usedMask]
    omega
  refine ⟨_, ?_, h.rehold hrefs (succ_ne_zero _) hmore⟩
  simp only [addref, ok_bind hindex, if_pos hlt, if_pos (isUsed_of_refs h hrefs), hword]
  rfl

theorem releaseOne_ok :
    ∃ st', c.releaseOne st addr = .ok st' ∧ Kept c st p st' (p.release (c.index addr)) := by
  have hlt := h.lt_of_refs hrefs
  have hword := h.used _ hrefs
  have hsmall := h.small (c.index addr)
  have hheld := h.held _ hrefs
  simp only [releaseOne, ok_bind (indexFromAddr_ok hbegin), if_pos hlt,
    if_pos (isUsed_of_refs h hrefs), one_or_usedMask]
  by_cases hone : p.refs (c.index addr) = 1
  · -- the last reference: the page goes on top of the chain
    have hlink := h.link hc hheld hlt
    have hadded : update p.added (c.index addr) true = p.added := by
      rw [← (h.owned _).2 (.inr (.inr hrefs)), update_eq_self]
    rw [hadded] at hlink
    rw [if_pos (by rw [hword, hone])]
    refine ⟨_, rfl, ?_, rfl, fun x hx => ?_⟩
    · simp only [Pool.release, hone, if_true]
      exact hlink
    · exact update_of_ne (ne_of_mem_of_not_mem hx hheld.2) _ _
  · have hdec : (st.entries (c.index addr) + 2 ^ 32 - 1) % 2 ^ 32 =
        usedMask + (p.refs (c.index addr) - 1) := by
      rw [hword, usedMask]
      omega
    rw [if_neg (by omega), hdec]
    refine ⟨_, rfl, ?_⟩
    simp only [Pool.release, if_neg hone]
    exact h.rehold hrefs (by omega) (by omega)

end

/-! ## Ranges and batches -/

theorem addLoop_ok {lo fuel : Nat} (hfuel : n < fuel) (hhi : lo + n ≤ c.highestUsable)
    (hfresh : ∀ q, lo ≤ q → q < lo + n → p.added q = false) :
    ∃ st', c.addLoop fuel (n * c.pagesz) ((lo + n + 2 ^ 32 - 1) % 2 ^ 32) st = .ok st' ∧
      Kept c st p st' (p.add lo n) := by
  induction n generalizing fuel st p with
  | zero =>
    obtain _ | fuel := fuel
    · omega
    rw [Nat.zero_mul]
    exact ⟨st, rfl, Kept.refl h⟩
  | succ n ih =>
    obtain _ | fuel := fuel
    · omega
    have hpages := hc.pages
    have hspace := hc.space
    have hpos : 0 < c.pagesz := Nat.two_pow_pos _
    have hmul : (n + 1) * c.pagesz ≤ c.highestUsable * c.pagesz :=
      mul_le_mul_right _ (by omega)
    have hsucc : (n + 1) * c.pagesz = n * c.pagesz + c.pagesz := succ_mul _ _
    have hnew : p.added (lo + n) = false := hfresh _ (by omega) (by omega)
    have hnowhere : lo + n ∉ p.free ∧ lo + n ∉ p.out ∧ p.refs (lo + n) = 0 := by
      have := (h.owned (lo + n)).not.1 (by rw [hnew]; exact Bool.false_ne_true)
      rw [not_or, not_or, not_not] at this
      exact this
    have hlink := h.link hc ⟨hnowhere.1, hnowhere.2.1⟩ (show lo + n < c.highestUsable by omega)
    have hrefs : update p.refs (lo + n) 0 = p.refs := by
      rw [← hnowhere.2.2, update_eq_self]
    rw [hrefs] at hlink
    have hstep : Kept c st p _ (p.push (lo + n)) := ⟨hlink, rfl, fun x hx =>
      update_of_ne (ne_of_mem_of_not_mem hx hnowhere.2.1) _ _⟩
    obtain ⟨st', hok, hkept⟩ := ih hlink (show n < fuel by omega) (by omega) (by
      intro q hlo hq
      simp only [update_of_ne (show q ≠ lo + n by omega)]
      exact hfresh q hlo (by omega))
    refine ⟨st', ?_, hstep.trans hkept⟩
    have hidx : (lo + (n + 1) + 2 ^ 32 - 1) % 2 ^ 32 = lo + n := by omega
    have hsize : ((n + 1) * c.pagesz + 2 ^ 64 - c.pagesz) % 2 ^ 64 = n * c.pagesz := by
      omega
    rw [addLoop, if_neg (by omega), hidx, if_pos (by omega),
      if_pos (h.fresh _ hnew), hsize, hok]

theorem addFreeSpace_ok {base size : Nat} (hr : NewRange c p base size) :
    ∃ st', c.addFreeSpace st base size = .ok st' ∧
      Kept c st p st' (p.add (c.index base) (size / c.pagesz)) := by
  have hpos : 0 < c.pagesz := Nat.two_pow_pos _
  have hindex : ∀ a, c.index a = (a - c.begin) / c.pagesz := fun a => shiftRight_eq_div_pow _ _
  have hsize : size / c.pagesz * c.pagesz = size :=
    Nat.div_mul_cancel (Nat.dvd_of_mod_eq_zero hr.whole)
  have hbase : c.index base * c.pagesz = base - c.begin := by
    rw [hindex]
    exact Nat.div_mul_cancel (Nat.dvd_of_mod_eq_zero hr.aligned)
  have hinside := mul_le_mul_right c.pagesz hr.inside
  rw [Nat.add_mul] at hinside
  have hbegin := hr.begin
  have hspace := hc.space
  have hend : (base + size) % 2 ^ 64 = base + size := mod_eq_of_lt (by omega)
  have hlast : c.index (base + size) = c.index base + size / c.pagesz := by
    have hsum : base + size - c.begin = (c.index base + size / c.pagesz) * c.pagesz := by
      rw [Nat.add_mul]
      omega
    rw [hindex (base + size), hsum, Nat.mul_div_cancel _ hpos]
  have hfuel : size / c.pagesz < c.highestUsable + 1 := by
    have := hr.inside
    omega
  obtain ⟨st', hok, hkept⟩ := addLoop_ok hc h hfuel hr.inside hr.fresh
  refine ⟨st', ?_, hkept⟩
  rw [hsize] at hok
  simp only [addFreeSpace, hend, ok_bind (indexFromAddr_ok (show c.begin ≤ base + size by omega)),
    hlast, hok]

theorem releaseAll_ok (hheld : Held c p l) :
    ∃ st', c.releaseAll l st = .ok st' ∧ Kept c st p st' (p.releaseAll (l.map c.index)) := by
  induction l generalizing st p with
  | nil => exact ⟨st, rfl, Kept.refl h⟩
  | cons a l ih =>
    have hcount := hheld.refs (c.index a)
    rw [map_cons, count_cons_self] at hcount
    obtain ⟨st1, hok1, hk1⟩ := releaseOne_ok hc h (hheld.begin a mem_cons_self)
      (show p.refs (c.index a) ≠ 0 by omega)
    obtain ⟨st', hok, hk⟩ := ih hk1.refines ⟨fun b hb => hheld.begin b (mem_cons_of_mem a hb), by
      intro q
      by_cases hq : q = c.index a
      · subst hq
        simp only [Pool.release, update_self]
        omega
      · have hq' := hheld.refs q
        rw [map_cons, count_cons_of_ne (Ne.symm hq)] at hq'
        simp only [Pool.release, update_of_ne hq]
        exact hq'⟩
    exact ⟨st', by simp [releaseAll, ok_bind hok1, hok], hk1.trans hk⟩

/-! ## `alloc_multiple` -/

theorem follow_ok {l1 l2 : List Nat} {i w : Nat}
    (hchain : Chain st.link (toLink w) (l1 ++ l2)) (hl : ∀ x ∈ l1 ++ l2, x ∈ p.free) :
    ∃ w', c.follow st l1.length i w = .ok (i + l1.length, w') ∧
      Segment st.link (toLink w) l1 (toLink w') ∧ Chain st.link (toLink w') l2 := by
  induction l1 generalizing i w with
  | nil => exact ⟨w, rfl, rfl, hchain⟩
  | cons q l1 ih =>
    obtain ⟨hw, hend, hlt, hassert⟩ := chain_cons hc h hchain hl
    obtain ⟨hhead, hrest⟩ := hchain
    subst hw
    obtain ⟨w', hok, hseg, hch⟩ := ih hrest fun x hx => hl x (by simp [hx])
    refine ⟨w', ?_, ⟨hhead, hseg⟩, hch⟩
    rw [length_cons, follow, if_neg hend, if_pos hlt, if_pos hassert, hok]
    congr 2
    omega

theorem follow_end {i w : Nat} (hchain : Chain st.link (toLink w) l) (hl : ∀ x ∈ l, x ∈ p.free)
    (hn : l.length < n) : c.follow st n i w = .ok (i + l.length, endMark) := by
  induction l generalizing n i w with
  | nil =>
    obtain _ | n := n
    · simp at hn
    have hw := toLink_eq_none hchain
    rw [follow, hw]
    rfl
  | cons q l ih =>
    obtain _ | n := n
    · simp at hn
    obtain ⟨hw, hend, hlt, hassert⟩ := chain_cons hc h hchain hl
    subst hw
    rw [length_cons] at hn
    rw [follow, if_neg hend, if_pos hlt, if_pos hassert,
      ih hchain.2 (fun x hx => hl x (by simp [hx])) (by omega), length_cons]
    congr 2
    omega

theorem nextFree_unused (hne : p.free ≠ []) : isUsed st.nextFree = false := by
  obtain ⟨q, l, hfree⟩ := exists_cons_of_ne_nil hne
  have hchain := h.chain
  rw [hfree] at hchain
  obtain ⟨hw, -, hlt, -⟩ := chain_cons hc h hchain fun x hx => by rwa [hfree]
  have hpages := hc.pages
  exact isUsed_of_lt (by omega)

/-- Taking as many pages as there are, or fewer: the last one still has the link to the first that
stays. -/
theorem detach_ok (hout : p.out = []) (hne : p.free ≠ []) (hn : n ≤ p.free.length) :
    ∃ st', c.detach st n = .ok (some st') ∧ Refines c st' (p.detach n) ∧
      Segment st'.link (toLink st.nextFree) (p.free.take n) (p.free.drop n).head? := by
  have hsplit := take_append_drop n p.free
  have hchain := h.chain
  rw [← hsplit] at hchain
  obtain ⟨w, hok, hseg, hch⟩ := follow_ok hc h hchain fun x hx => by rwa [hsplit] at hx
  have hlen : (p.free.take n).length = n := by
    rw [length_take]
    omega
  rw [hlen, Nat.zero_add] at hok
  rw [hch.eq_head?] at hseg
  refine ⟨⟨st.entries, w, (st.freePageCount + 2 ^ 32 - n % 2 ^ 32) % 2 ^ 32⟩, ?_, ?_, hseg⟩
  · rw [detach, nextFree_unused hc h hne]
    simp only [ok_bind hok, if_true]
    rfl
  · have hnd := h.nodup
    rw [hout, append_nil] at hnd
    constructor
    · exact hch
    · exact h.used
    · exact h.fresh
    · show (st.freePageCount + 2 ^ 32 - n % 2 ^ 32) % 2 ^ 32 =
        ((p.free.drop n).length + p.ones) % 2 ^ 32
      rw [h.count, length_drop]
      omega
    · show (p.free.drop n ++ p.free.take n).Nodup
      rw [nodup_append_comm, hsplit]
      exact hnd
    · intro q hq
      have hnot := (h.held q hq).1
      exact ⟨fun hin => hnot (mem_of_mem_drop hin), fun hin => hnot (mem_of_mem_take hin)⟩
    · intro q
      show p.added q = true ↔ q ∈ p.free.drop n ∨ q ∈ p.free.take n ∨ p.refs q ≠ 0
      have hparts : q ∈ p.free ↔ q ∈ p.free.drop n ∨ q ∈ p.free.take n := by
        rw [or_comm, ← mem_append, hsplit]
      rw [h.owned q, hout, hparts, or_assoc]
      simp
    · exact h.bound
    · exact h.small

theorem detach_none (hne : p.free ≠ []) (hn : p.free.length < n) : c.detach st n = .ok none := by
  have hok := follow_end hc h (i := 0) h.chain (fun _ hx => hx) hn
  rw [detach, nextFree_unused hc h hne]
  simp only [ok_bind hok, Nat.zero_add, if_neg (show ¬ p.free.length = n by omega)]
  rfl

end Dgos.L2.PhysAlloc
