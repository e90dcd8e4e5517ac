import Dgos.Core.Lts
import Dgos.L2Memory.PhysAllocPool

/-!
# The physical page allocator over whole runs

The allocator with its batches next to the pool its calls build. `Legal` is what callers owe the
allocator (only held references are given back, ranges are new and inside); `Sound` is where the
source goes wrong on legal calls: `alloc_multiple` asserts that no link it reads is the end of the
chain, so it stops the kernel when the chain is empty and when it takes all of it; and a reference
count may run into the top bit.

Results:

* `exec_ok`: a legal and sound call fails no assertion and does to the pool what it is for.
* `allocMultiple_asserts`: asking for the last free page, or for any when there is none, fails an
  assertion.
* `run_pages`: after every run the free chain has exactly the pages without references, each once,
  and the words of the others hold their counts; `free_page_count` is the length of the chain
  if and only if `alloc_one` has found a page `0` times modulo `2 ^ 32`, because it never counts.
* `count_not_kept`: one page, taken by `alloc_one`: the counter still says 1; given to
  `alloc_multiple` it fails an assertion.
-/
namespace Dgos.L2.PhysAlloc

open List Function Cfg Kept

structure Abs where
  pool : Pool
  batches : Nat → List Nat

namespace Abs

def init : Abs := ⟨.init, fun _ => []⟩

/-- The pages of a batch are released, in the order the batch chooses. -/
def flush (c : Cfg) (a : Abs) (b : Nat) : Abs :=
  ⟨a.pool.releaseAll ((flushOrder (a.batches b)).map c.index), Function.update a.batches b []⟩

def flushIfFull (c : Cfg) (a : Abs) (b : Nat) : Abs :=
  if (a.batches b).length = 16 then a.flush c b else a

def batchFree (c : Cfg) (a : Abs) (b addr : Nat) : Abs :=
  if addr = 0 ∨ addr = pteAddr then a
  else { a.flushIfFull c b with
    batches := Function.update (a.flushIfFull c b).batches b
      ((a.flushIfFull c b).batches b ++ [addr]) }

def call (c : Cfg) (a : Abs) : Call → Abs
  | .allocOne => { a with pool := a.pool.allocOne }
  | .addref addr => { a with pool := a.pool.addref (c.index addr) }
  | .releaseOne addr => { a with pool := a.pool.release (c.index addr) }
  | .batchFree b addr => a.batchFree c b addr
  | .flush b => a.flush c b

def calls (c : Cfg) (l : List Call) (a : Abs) : Abs := l.foldl (call c) a

def detach (a : Abs) (n : Nat) : Abs := { a with pool := a.pool.detach n }

/-- The callback makes its calls for the page `i` and takes it. -/
def handOut (c : Cfg) (acts : Nat → List Call) (i : Nat) (a : Abs) : Abs :=
  { a.calls c (acts i) with pool := (a.calls c (acts i)).pool.take }

/-- `n` pages on their way out are handed out. -/
def provide (c : Cfg) (acts : Nat → List Call) : Nat → Nat → Abs → Abs
  | 0, _, a => a
  | n + 1, i, a => provide c acts n (i + 1) (a.handOut c acts i)

def exec (c : Cfg) (a : Abs) : Op → Abs
  | .addFreeSpace base size => { a with pool := a.pool.add (c.index base) (size / c.pagesz) }
  | .call x => a.call c x
  | .allocMultiple size acts =>
    if size >>> c.log2Pagesz ≤ a.pool.free.length then
      provide c acts (size >>> c.log2Pagesz) 0 (a.detach (size >>> c.log2Pagesz))
    else a

end Abs

/-! ## Which calls are right -/

/-- Only references that are held are used and given back. -/
def Call.Legal (c : Cfg) (a : Abs) : Call → Prop
  | .allocOne => True
  | .addref addr => c.begin ≤ addr ∧ a.pool.refs (c.index addr) ≠ 0
  | .releaseOne addr => c.begin ≤ addr ∧ a.pool.refs (c.index addr) ≠ 0
  | .batchFree b addr => addr = 0 ∨ addr = pteAddr ∨ (0x100000 ≤ addr ∧ addr < 0x0010000000000000 ∧
      ((a.batches b).length = 16 → Held c a.pool (a.batches b)))
  | .flush b => Held c a.pool (a.batches b)

/-- A word has room for `2 ^ 31 - 1` references. -/
def Call.Sound (c : Cfg) (a : Abs) : Call → Prop
  | .addref addr => a.pool.refs (c.index addr) + 1 < 2 ^ 31
  | _ => True

/-- A property of every call of a list at the time it is made. -/
def Each (P : Abs → Call → Prop) (c : Cfg) : List Call → Abs → Prop
  | [], _ => True
  | x :: l, a => P a x ∧ Each P c l (a.call c x)

/-- A property of every call a callback makes while `n` pages are handed out. -/
def Along (P : Abs → Call → Prop) (c : Cfg) (acts : Nat → List Call) : Nat → Nat → Abs → Prop
  | 0, _, _ => True
  | n + 1, i, a => Each P c (acts i) a ∧ Along P c acts n (i + 1) (a.handOut c acts i)

def Op.Legal (c : Cfg) (a : Abs) : Op → Prop
  | .addFreeSpace base size => NewRange c a.pool base size
  | .call x => x.Legal c a
  | .allocMultiple size acts => size % c.pagesz = 0 ∧ (size >>> c.log2Pagesz ≤ a.pool.free.length →
      Along (Call.Legal c) c acts (size >>> c.log2Pagesz) 0 (a.detach (size >>> c.log2Pagesz)))

def Op.Sound (c : Cfg) (a : Abs) : Op → Prop
  | .addFreeSpace _ _ => True
  | .call x => x.Sound c a
  | .allocMultiple size acts => size >>> c.log2Pagesz = 0 ∨
    a.pool.free ≠ [] ∧ size >>> c.log2Pagesz ≠ a.pool.free.length ∧
      (size >>> c.log2Pagesz ≤ a.pool.free.length →
        Along (Call.Sound c) c acts (size >>> c.log2Pagesz) 0 (a.detach (size >>> c.log2Pagesz)))

/-! ## One call -/

structure Models (c : Cfg) (s : Sys) (a : Abs) : Prop where
  refines : Refines c s.st a.pool
  batches : s.batches = a.batches

/-- A call that leaves the pages on their way out alone. -/
structure Moved (c : Cfg) (s : Sys) (a : Abs) (s' : Sys) (a' : Abs) : Prop where
  kept : Kept c s.st a.pool s'.st a'.pool
  batches : s'.batches = a'.batches

variable {c : Cfg} {s s' : Sys} {a : Abs} {x : Call} {q : Nat}

theorem Moved.models {a' : Abs} (h : Moved c s a s' a') : Models c s' a' :=
  ⟨h.kept.refines, h.batches⟩

section Calls

variable {b : Nat}

section

variable (hc : c.Ok) (h : Models c s a)
include hc h

theorem flush_ok (hheld : Held c a.pool (a.batches b)) :
    ∃ s', c.flush s b = .ok s' ∧ Moved c s a s' (a.flush c b) := by
  obtain ⟨st, hok, hk⟩ := releaseAll_ok hc h.refines (hheld.perm (flushOrder_perm _))
  refine ⟨{ s with st := st }.setBatch b [], ?_, hk, ?_⟩
  · simp only [flush, h.batches, ok_bind hok]
    rfl
  · exact congrArg (fun f => update f b []) h.batches

theorem flushIfFull_ok (hheld : (a.batches b).length = 16 → Held c a.pool (a.batches b)) :
    ∃ s', c.flushIfFull s b = .ok s' ∧ Moved c s a s' (a.flushIfFull c b) := by
  by_cases hfull : (a.batches b).length = 16
  · rw [flushIfFull, h.batches, if_pos hfull, Abs.flushIfFull, if_pos hfull]
    exact flush_ok hc h (hheld hfull)
  · rw [flushIfFull, h.batches, if_neg hfull, Abs.flushIfFull, if_neg hfull]
    exact ⟨s, rfl, refl h.refines, h.batches⟩

theorem batchFree_ok {addr : Nat} (hlegal : (Call.batchFree b addr).Legal c a) :
    ∃ s', c.batchFree s b addr = .ok s' ∧ Moved c s a s' (a.batchFree c b addr) := by
  by_cases hskip : addr = 0 ∨ addr = pteAddr
  · rw [batchFree, if_pos hskip, Abs.batchFree, if_pos hskip]
    exact ⟨s, rfl, refl h.refines, h.batches⟩
  obtain h0 | hp | ⟨hlo, hhi, hheld⟩ := hlegal
  · exact absurd (.inl h0) hskip
  · exact absurd (.inr hp) hskip
  obtain ⟨s', hok, hm⟩ := flushIfFull_ok hc h hheld
  rw [batchFree, if_neg hskip, if_pos ⟨hlo, hhi⟩, Abs.batchFree, if_neg hskip]
  refine ⟨s'.setBatch b (s'.batches b ++ [addr]), ?_, hm.kept, ?_⟩
  · simp only [ok_bind hok]
    rfl
  · show update s'.batches b (s'.batches b ++ [addr]) = _
    rw [hm.batches]

/-- The answer of `alloc_one`: the first free page, or 0. -/
def answer (c : Cfg) (a : Abs) : Call → Nat
  | .allocOne => (a.pool.free.head?.map c.addrFromIndex).getD 0
  | _ => 0

theorem call_ok (hlegal : x.Legal c a) (hsound : x.Sound c a) :
    ∃ s', call c s x = .ok (answer c a x, s') ∧ Moved c s a s' (a.call c x) := by
  cases x with
  | allocOne =>
    cases hfree : a.pool.free with
    | nil =>
      have hpool : a.pool.allocOne = a.pool := by rw [Pool.allocOne, hfree]
      refine ⟨s, ?_, ?_⟩
      · simp only [call, ok_bind (allocOne_nil h.refines hfree), answer, hfree]
        rfl
      · simp only [Abs.call, hpool]
        exact ⟨refl h.refines, h.batches⟩
    | cons q l =>
      obtain ⟨st, hok, hk⟩ := allocOne_cons hc h.refines hfree
      refine ⟨{ s with st := st }, ?_, hk, h.batches⟩
      simp only [call, ok_bind hok, answer, hfree]
      rfl
  | addref addr =>
    obtain ⟨st, hok, hk⟩ := addref_ok hc h.refines hlegal.1 hlegal.2 hsound
    refine ⟨{ s with st := st }, ?_, hk, h.batches⟩
    simp only [call, ok_bind hok]
    rfl
  | releaseOne addr =>
    obtain ⟨st, hok, hk⟩ := releaseOne_ok hc h.refines hlegal.1 hlegal.2
    refine ⟨{ s with st := st }, ?_, hk, h.batches⟩
    simp only [call, ok_bind hok]
    rfl
  | batchFree b addr =>
    obtain ⟨s', hok, hm⟩ := batchFree_ok hc h hlegal
    refine ⟨s', ?_, hm⟩
    simp only [call, ok_bind hok]
    rfl
  | flush b =>
    obtain ⟨s', hok, hm⟩ := flush_ok hc h hlegal
    refine ⟨s', ?_, hm⟩
    simp only [call, ok_bind hok]
    rfl

end

theorem calls_ok (hc : c.Ok) {l : List Call} {s : Sys} {a : Abs} (h : Models c s a)
    (hlegal : Each (Call.Legal c) c l a) (hsound : Each (Call.Sound c) c l a) :
    ∃ s', calls c l s = .ok s' ∧ Moved c s a s' (a.calls c l) := by
  induction l generalizing s a with
  | nil => exact ⟨s, rfl, refl h.refines, h.batches⟩
  | cons x l ih =>
    obtain ⟨s1, hok1, hm1⟩ := call_ok hc h hlegal.1 hsound.1
    obtain ⟨s', hok, hm⟩ := ih hm1.models hlegal.2 hsound.2
    refine ⟨s', ?_, hm1.kept.trans hm.kept, hm.batches⟩
    simp [calls, ok_bind hok1, hok]

end Calls

/-! ## `alloc_multiple` -/

section Multiple

/-- The system after the callback has taken the page `first`. -/
def Sys.handOut (s : Sys) (first : Nat) : Sys :=
  { s with st := s.st.setEntry first (usedMask + 1) }

variable {count i used first n size : Nat} {out : List Nat} {acts : Nat → List Call}

section

variable (hc : c.Ok) (h : Models c s a)
include hc h

/-- One page is handed out if its link is not the end of the chain; the links of the pages behind
it stay. -/
theorem provide_cons (hout : a.pool.out = first :: out)
    (hunused : isUsed (s.st.entries first) = false) (hused : used < count)
    (hlegal : Each (Call.Legal c) c (acts i) a) (hsound : Each (Call.Sound c) c (acts i) a) :
    ∃ s', Models c s' (a.handOut c acts i) ∧ (a.handOut c acts i).pool.out = out ∧
      (∀ e, Segment s.st.link (toLink (s.st.entries first)) out e →
        Segment s'.st.link (toLink (s.st.entries first)) out e) ∧
      c.provide (accepting c acts) count (n + 1) i used first s = (do
        let (last, used', handed, s'') ← c.provide (accepting c acts) count n (i + 1) (used + 1)
          (s.st.entries first) s'
        return (last, used', c.addrFromIndex first :: handed, s'')) := by
  obtain ⟨s1, hcalls, hm⟩ := calls_ok hc h hlegal hsound
  have hout1 : (a.calls c (acts i)).pool.out = first :: out := hm.kept.out.trans hout
  have hnd := h.refines.nodup
  rw [hout, nodup_append] at hnd
  have hnot : first ∉ out := (nodup_cons.1 hnd.2.1).1
  refine ⟨s1.handOut first, ⟨take_ok hm.kept.refines hout1, hm.batches⟩, ?_, ?_, ?_⟩
  · show (a.calls c (acts i)).pool.take.out = out
    rw [Pool.take, hout1]
  · intro e hseg
    refine hseg.frame fun x hx => ?_
    simp only [Sys.handOut, St.link, St.setEntry, update_of_ne (ne_of_mem_of_not_mem hx hnot)]
    rw [hm.kept.entries x (by simp [hout, hx])]
  · have hcb : accepting c acts i (c.addrFromIndex first) s = .ok (true, s1) := by
      simp only [accepting, ok_bind hcalls]
      rfl
    rw [provide, if_pos hused, hunused]
    simp only [ok_bind hcb, if_true, one_or_usedMask]
    rfl

/-- The link of a page on its way out that is followed by another. -/
theorem link_unused {q' : Nat} (hlink : s.st.link q = some q') (hmem : q' ∈ a.pool.out) :
    isUsed (s.st.entries q) = false := by
  obtain ⟨hw, -⟩ := toLink_eq_some hlink
  have hlt := h.refines.bound q' ((h.refines.owned q').2 (.inr (.inl hmem)))
  have hpages := hc.pages
  exact isUsed_of_lt (by omega)

section

variable (hout : a.pool.out = out) (hn : out.length = n) (hcount : used + n = count)
  (hlegal : Along (Call.Legal c) c acts n i a) (hsound : Along (Call.Sound c) c acts n i a)
include hout hn hcount hlegal hsound

/-- Handing out pages whose last link is not the end of the chain. -/
theorem provide_ok {r : Nat} (hr : r < 2 ^ 31)
    (hseg : Segment s.st.link (toLink first) out (some r)) :
    ∃ last s', c.provide (accepting c acts) count n i used first s =
        .ok (last, count, out.map c.addrFromIndex, s') ∧
      Models c s' (a.provide c acts n i) ∧ (a.provide c acts n i).pool.out = [] := by
  subst hn
  induction out generalizing i used first s a with
  | nil =>
    refine ⟨first, s, ?_, h, hout⟩
    rw [← hcount]
    rfl
  | cons q out ih =>
    rw [length_cons] at hcount
    obtain ⟨hfirst, hseg⟩ := hseg
    obtain ⟨rfl, -⟩ := toLink_eq_some hfirst
    -- the link of the page is the next page on its way out, or the page behind the last
    have hunused : isUsed (s.st.entries first) = false := by
      cases out with
      | nil =>
        obtain ⟨hw, -⟩ := toLink_eq_some hseg
        rw [hw]
        exact isUsed_of_lt hr
      | cons q' out => exact link_unused hc h hseg.1 (by simp [hout])
    obtain ⟨s1, hm, hout1, hseg1, hstep⟩ := provide_cons hc h hout hunused
      (show used < count by omega) hlegal.1 hsound.1
    obtain ⟨last, s', hok, hmodels, hnil⟩ := ih hm hout1 (hseg1 _ hseg)
      (show used + 1 + out.length = count by omega) hlegal.2 hsound.2
    refine ⟨last, s', ?_, hmodels, hnil⟩
    rw [length_cons, hstep]
    simp only [ok_bind hok]
    rfl

/-- Handing out the last page of the chain fails an assertion. -/
theorem provide_fails (hne : out ≠ []) (hseg : Segment s.st.link (toLink first) out none) :
    c.provide (accepting c acts) count n i used first s = .error .assertFailed := by
  subst hn
  induction out generalizing i used first s a with
  | nil => exact absurd rfl hne
  | cons q out ih =>
    rw [length_cons] at hcount
    obtain ⟨hfirst, hseg⟩ := hseg
    obtain ⟨rfl, -⟩ := toLink_eq_some hfirst
    cases out with
    | nil =>
      have hend : s.st.entries first = endMark := toLink_eq_none hseg
      rw [length_singleton, provide, if_pos (show used < count by omega), hend,
        if_pos isUsed_endMark]
    | cons q' out =>
      have hunused := link_unused hc h hseg.1 (show q' ∈ a.pool.out by simp [hout])
      obtain ⟨s1, hm, hout1, hseg1, hstep⟩ := provide_cons hc h hout hunused
        (show used < count by omega) hlegal.1 hsound.1
      have hfail := ih hm hout1 (cons_ne_nil _ _) (hseg1 _ hseg)
        (show used + 1 + (q' :: out).length = count by omega) hlegal.2 hsound.2
      rw [length_cons, hstep, hfail]
      rfl

end

variable (hwhole : size % c.pagesz = 0)
include hwhole

variable (hout : a.pool.out = []) (hn : size >>> c.log2Pagesz = n) (hpos : n ≠ 0)
  (hlegal : Along (Call.Legal c) c acts n 0 (a.detach n))
  (hsound : Along (Call.Sound c) c acts n 0 (a.detach n))
include hout hn hpos hlegal hsound

theorem allocMultiple_some (hlt : n < a.pool.free.length) :
    ∃ s', c.allocMultiple s size (accepting c acts) =
        .ok (true, (a.pool.free.take n).map c.addrFromIndex, s') ∧
      Models c s' ((a.detach n).provide c acts n 0) ∧
      ((a.detach n).provide c acts n 0).pool.out = [] := by
  have hne : a.pool.free ≠ [] := ne_nil_of_length_pos (by omega)
  obtain ⟨st, hdetach, hrefines, hseg⟩ := detach_ok hc h.refines hout hne (le_of_lt hlt)
  obtain ⟨r, hr⟩ : ∃ r, (a.pool.free.drop n).head? = some r := by
    rw [head?_drop]
    exact ⟨_, getElem?_eq_getElem hlt⟩
  have hr31 : r < 2 ^ 31 := by
    have hmem : r ∈ a.pool.free := mem_of_mem_drop (mem_of_mem_head? hr)
    have hbound := h.refines.lt_of_free hmem
    have hpages := hc.pages
    omega
  rw [hr] at hseg
  have hm : Models c { s with st := st } (a.detach n) := ⟨hrefines, h.batches⟩
  obtain ⟨last, s', hok, hmodels, hnil⟩ := provide_ok hc hm rfl
    (length_take_of_le (le_of_lt hlt)) (Nat.zero_add n) hlegal hsound hr31 hseg
  refine ⟨s', ?_, hmodels, hnil⟩
  rw [allocMultiple, if_neg (not_not.2 hwhole), hn, if_neg hpos]
  simp only [ok_bind hdetach, ok_bind hok, spliceBack, ne_eq, not_true_eq_false, if_false]
  rfl

theorem allocMultiple_asserts (hall : a.pool.free = [] ∨ n = a.pool.free.length) :
    c.allocMultiple s size (accepting c acts) = .error .assertFailed := by
  rw [allocMultiple, if_neg (not_not.2 hwhole), hn, if_neg hpos]
  by_cases hfree : a.pool.free = []
  · have hchain := h.refines.chain
    rw [hfree] at hchain
    have hused : isUsed s.st.nextFree = true := by
      rw [toLink_eq_none hchain]
      exact isUsed_endMark
    have hdetach : c.detach s.st n = .error .assertFailed := if_pos hused
    rw [hdetach]
    rfl
  · have hall := hall.resolve_left hfree
    obtain ⟨st, hdetach, hrefines, hseg⟩ := detach_ok hc h.refines hout hfree (le_of_eq hall)
    rw [drop_eq_nil_of_le (le_of_eq hall.symm)] at hseg
    have hm : Models c { s with st := st } (a.detach n) := ⟨hrefines, h.batches⟩
    have hlen : (a.detach n).pool.out.length = n := length_take_of_le (le_of_eq hall)
    have hfails := provide_fails hc hm rfl hlen (Nat.zero_add n) hlegal hsound
      (ne_nil_of_length_pos (by omega)) hseg
    simp only [ok_bind hdetach, hfails]
    rfl

end

end Multiple

/-! ## Runs -/

/-- The pages the allocator finds by following the links from `next_free`. -/
def freeChain (c : Cfg) (st : St) : List Nat := walk st.link c.highestUsable (toLink st.nextFree)

theorem freeChain_eq {st : St} {p : Pool} (h : Refines c st p) : freeChain c st = p.free := by
  have hnd := (nodup_append.1 h.nodup).1
  exact h.chain.walk_eq (length_le_of_nodup_lt hnd fun q hq => h.lt_of_free hq)

theorem addrFromIndex_eq (hc : c.Ok) (hq : q < c.highestUsable) :
    c.addrFromIndex q = q * c.pagesz + c.begin := by
  have hle := Nat.mul_le_mul_right c.pagesz (le_of_lt hq)
  have hspace := hc.space
  exact Nat.mod_eq_of_lt (show q * c.pagesz + c.begin < 2 ^ 64 by omega)

theorem nodup_addrs (hc : c.Ok) {l : List Nat} (hnd : l.Nodup)
    (hl : ∀ q ∈ l, q < c.highestUsable) : (l.map c.addrFromIndex).Nodup := by
  refine List.Nodup.map_on ?_ hnd
  intro x hx y hy hxy
  rw [addrFromIndex_eq hc (hl x hx), addrFromIndex_eq hc (hl y hy)] at hxy
  exact Nat.eq_of_mul_eq_mul_right (Nat.two_pow_pos c.log2Pagesz)
    (show x * c.pagesz = y * c.pagesz by omega)

/-- What a call answers: `alloc_one` the first free page, and 0 only if there is none;
`alloc_multiple` as many different free pages as it was asked for, or false and no change. -/
def Answers (c : Cfg) (s : Sys) (r : Ret) (s' : Sys) : Op → Prop
  | .addFreeSpace _ _ => r = .done
  | .call .allocOne => ∃ a, r = .addr a ∧ (a = 0 ↔ freeChain c s.st = []) ∧
    ∀ q l, freeChain c s.st = q :: l → a = c.addrFromIndex q
  | .call _ => r = .addr 0
  | .allocMultiple size _ =>
    (size >>> c.log2Pagesz ≤ (freeChain c s.st).length → ∃ handed, r = .pages true handed ∧
      handed = ((freeChain c s.st).take (size >>> c.log2Pagesz)).map c.addrFromIndex ∧
      handed.Nodup) ∧
    ((freeChain c s.st).length < size >>> c.log2Pagesz → r = .pages false [] ∧ s' = s)

theorem answers_allocOne (hc : c.Ok) (h : Models c s a) :
    Answers c s (.addr (answer c a .allocOne)) s' (.call .allocOne) := by
  refine ⟨_, rfl, ?_, ?_⟩
  · rw [freeChain_eq h.refines]
    cases hfree : a.pool.free with
    | nil => simp [answer, hfree]
    | cons q l =>
      have hlt := h.refines.lt_of_free (show q ∈ a.pool.free by simp [hfree])
      have hbegin := hc.begin
      simp only [answer, hfree, head?_cons, Option.map_some, Option.getD_some,
        addrFromIndex_eq hc hlt]
      exact ⟨fun h0 => by omega, nofun⟩
  · intro q l hfree
    rw [freeChain_eq h.refines] at hfree
    simp [answer, hfree]

theorem exec_call {a : Nat} (h : call c s x = .ok (a, s')) :
    exec c s (.call x) = .ok (.addr a, s') := by
  simp only [exec, ok_bind h]
  rfl

theorem detach_zero (hout : a.pool.out = []) : a.detach 0 = a := by
  have hpool : a.pool.detach 0 = a.pool := by
    rw [Pool.detach, drop_zero, take_zero, ← hout]
  rw [Abs.detach, hpool]

theorem exec_ok (hc : c.Ok) (h : Models c s a)
    (hout : a.pool.out = []) {op : Op} (hlegal : op.Legal c a) (hsound : op.Sound c a) :
    ∃ r s', exec c s op = .ok (r, s') ∧ Answers c s r s' op ∧ Models c s' (a.exec c op) ∧
      (a.exec c op).pool.out = [] := by
  cases op with
  | addFreeSpace base size =>
    obtain ⟨st, hok, hk⟩ := addFreeSpace_ok hc h.refines hlegal
    refine ⟨.done, { s with st := st }, ?_, rfl, ⟨hk.refines, h.batches⟩, hk.out.trans hout⟩
    simp only [exec, ok_bind hok]
    rfl
  | call x =>
    obtain ⟨s', hok, hm⟩ := call_ok hc h hlegal hsound
    refine ⟨.addr (answer c a x), s', exec_call hok, ?_, hm.models, hm.kept.out.trans hout⟩
    cases x with
    | allocOne => exact answers_allocOne hc h
    | addref addr => rfl
    | releaseOne addr => rfl
    | batchFree b addr => rfl
    | flush b => rfl
  | allocMultiple size acts =>
    obtain ⟨hwhole, hlegal⟩ := hlegal
    have hchain := freeChain_eq h.refines
    obtain ⟨n, hn⟩ : ∃ n, size >>> c.log2Pagesz = n := ⟨_, rfl⟩
    simp only [Op.Sound, hn] at hsound
    rw [hn] at hlegal
    simp only [Answers, Abs.exec, hn, hchain]
    by_cases hpos : n = 0
    · subst hpos
      rw [detach_zero hout]
      refine ⟨.pages true [], s, ?_, ⟨fun _ => ⟨[], rfl, by simp, nodup_nil⟩, fun hgt => by omega⟩, h,
        hout⟩
      simp only [exec, allocMultiple, if_neg (not_not.2 hwhole), if_pos hn]
      rfl
    · obtain ⟨hne, hnot, hsound⟩ := hsound.resolve_left hpos
      by_cases hlt : n < a.pool.free.length
      · obtain ⟨s', hok, hmodels, hnil⟩ := allocMultiple_some hc h hwhole hout hn hpos
          (hlegal (le_of_lt hlt)) (hsound (le_of_lt hlt)) hlt
        rw [if_pos (le_of_lt hlt)]
        refine ⟨_, s', ?_, ⟨fun _ => ⟨_, rfl, rfl, ?_⟩, fun hgt => by omega⟩, hmodels, hnil⟩
        · simp only [exec, ok_bind hok]
          rfl
        · have hnd := (nodup_append.1 h.refines.nodup).1
          exact nodup_addrs hc (hnd.sublist (take_sublist _ _))
            fun q hq => h.refines.lt_of_free (mem_of_mem_take hq)
      · have hok : c.allocMultiple s size (accepting c acts) = .ok (false, [], s) := by
          rw [allocMultiple, if_neg (not_not.2 hwhole), if_neg (by omega)]
          simp only [ok_bind (detach_none hc h.refines hne (show _ < size >>> c.log2Pagesz by omega))]
          rfl
        rw [if_neg (by omega)]
        refine ⟨.pages false [], s, ?_, ⟨fun hle => by omega, fun _ => ⟨rfl, rfl⟩⟩, h, hout⟩
        simp only [exec, ok_bind hok]
        rfl

/-- The allocator and its batches next to the pool of its calls. -/
def lts (c : Cfg) : LTS (Sys × Abs) Op where
  init x := x = (⟨.init, fun _ => []⟩, .init)
  step x op x' := op.Legal c x.2 ∧ op.Sound c x.2 ∧ (∃ r, exec c x.1 op = .ok (r, x'.1)) ∧
    x'.2 = x.2.exec c op

theorem models_inductive (hc : c.Ok) :
    (lts c).Inductive fun x => Models c x.1 x.2 ∧ x.2.pool.out = [] where
  init x hx := by
    subst hx
    exact ⟨⟨refines_init c, rfl⟩, rfl⟩
  step x op x' hx hstep := by
    obtain ⟨hlegal, hsound, ⟨r, heq⟩, hnext⟩ := hstep
    obtain ⟨r', s', hok, -, hmodels, hout⟩ := exec_ok hc hx.1 hx.2 hlegal hsound
    cases heq.symm.trans hok
    rw [hnext]
    exact ⟨hmodels, hout⟩

/-- **Every page is free or counted.** After every run of legal and sound calls the links from
`next_free` end, and visit every page that was added and has no reference exactly once and no
other; the word of every other page that was added holds the number of its references;
`free_page_count` is the number of free pages if and only if the number of pages `alloc_one` has
given out is a multiple of `2 ^ 32`; and the next legal and sound call fails no assertion and
answers right. -/
theorem run_pages (c : Cfg) (hc : c.Ok) (x : Sys × Abs) (hx : (lts c).Reachable x) :
    Chain x.1.st.link (toLink x.1.st.nextFree) (freeChain c x.1.st) ∧
      (freeChain c x.1.st).Nodup ∧ (∀ q ∈ freeChain c x.1.st, x.2.pool.added q = true) ∧
      (∀ q, x.2.pool.added q = true → (q ∈ freeChain c x.1.st ↔ x.2.pool.refs q = 0) ∧
        (x.2.pool.refs q ≠ 0 → x.1.st.entries q = usedMask + x.2.pool.refs q)) ∧
      (x.1.st.freePageCount = (freeChain c x.1.st).length ↔ 2 ^ 32 ∣ x.2.pool.ones) ∧
      ∀ op : Op, op.Legal c x.2 → op.Sound c x.2 →
        ∃ r s', exec c x.1 op = .ok (r, s') ∧ Answers c x.1 r s' op := by
  obtain ⟨h, hout⟩ := (models_inductive hc).reachable x hx
  have href := h.refines
  have hnd := (nodup_append.1 href.nodup).1
  have hlen := length_le_of_nodup_lt hnd fun q hq => href.lt_of_free hq
  have hpages := hc.pages
  rw [freeChain_eq href]
  refine ⟨href.chain, hnd, fun q hq => (href.owned q).2 (.inl hq),
    fun q hq => ⟨href.mem_free_iff hout hq, href.used q⟩, ?_, fun op hlegal hsound => ?_⟩
  · rw [href.count]
    omega
  · obtain ⟨r, s', hok, hans, -⟩ := exec_ok hc h hout hlegal hsound
    exact ⟨r, s', hok, hans⟩

/-- Two pages of memory behind the first megabyte. -/
def smallCfg : Cfg := ⟨0x100000, 12, 2⟩

theorem smallCfg_ok : smallCfg.Ok := ⟨by decide, by decide, by decide⟩

def start : Sys := ⟨.init, fun _ => []⟩

/-- Both pages are added. -/
def twoPages : Op := .addFreeSpace 0x100000 0x2000

theorem twoPages_legal : twoPages.Legal smallCfg .init :=
  ⟨by decide, by decide, by decide, by decide, fun _ _ _ => rfl⟩

def bothFree : Abs := ⟨Pool.init.add 0 2, fun _ => []⟩

theorem twoPages_ok : ∃ r s, exec smallCfg start twoPages = .ok (r, s) ∧
    Models smallCfg s bothFree := by
  obtain ⟨r, s, hok, -, hmodels, -⟩ := exec_ok smallCfg_ok (s := start)
    ⟨refines_init _, rfl⟩ rfl twoPages_legal trivial
  exact ⟨r, s, hok, hmodels⟩

theorem call_step (h : Models smallCfg s a) (hlegal : x.Legal smallCfg a)
    (hsound : x.Sound smallCfg a) : ∃ s', (lts smallCfg).step (s, a) (.call x)
      (s', a.call smallCfg x) ∧ Models smallCfg s' (a.call smallCfg x) := by
  obtain ⟨s', hok, hmoved⟩ := call_ok smallCfg_ok h hlegal hsound
  exact ⟨s', ⟨hlegal, hsound, ⟨_, exec_call hok⟩, rfl⟩, hmoved.models⟩

/-- One of two pages is allocated and shared. -/
theorem run_pages_two : ∃ x, (lts smallCfg).Run (start, .init)
      [twoPages, .call .allocOne, .call (.addref 0x100000)] x ∧
    x.1.st.entries 0 = usedMask + 2 := by
  obtain ⟨r, s, hok, hm⟩ := twoPages_ok
  have hadd : (lts smallCfg).step (start, .init) twoPages (s, bothFree) :=
    ⟨twoPages_legal, trivial, ⟨r, hok⟩, rfl⟩
  obtain ⟨s1, hone, hm1⟩ := @call_step s bothFree .allocOne hm trivial trivial
  obtain ⟨s2, hshare, -⟩ := @call_step s1 _ (.addref 0x100000) hm1 ⟨le_rfl, by decide⟩
    (show 1 + 1 < 2 ^ 31 by decide)
  have hrun := LTS.Run.cons hadd (.cons hone (.cons hshare (.nil _)))
  exact ⟨_, hrun, ((run_pages smallCfg smallCfg_ok _ ⟨_, _, rfl, hrun⟩).2.2.2.1 0 rfl).2
    (show 2 ≠ 0 by decide)⟩

/-- The state after some calls. -/
def after (c : Cfg) : List Op → Sys → Except Err Sys
  | [], s => .ok s
  | op :: ops, s => do
    let (_, s) ← exec c s op
    after c ops s

/-- Of two pages one is allocated: one is left on the chain, and the counter says there are two.
And `alloc_multiple` fails an assertion when it is to take both. -/
theorem count_not_kept : (∃ s, after smallCfg [twoPages, .call .allocOne] start = .ok s ∧
      freeChain smallCfg s.st = [1] ∧ s.st.freePageCount = 2) ∧
      after smallCfg [twoPages, .allocMultiple 0x2000 fun _ => []] start =
        .error .assertFailed := by
  obtain ⟨r, s, hok, hm⟩ := twoPages_ok
  constructor
  · obtain ⟨s', hcall, hmoved⟩ := call_ok smallCfg_ok hm (show Call.Legal smallCfg _ .allocOne from
      trivial) trivial
    refine ⟨s', ?_, freeChain_eq hmoved.kept.refines, hmoved.kept.refines.count⟩
    simp [after, ok_bind hok, ok_bind (exec_call hcall)]
  · have hfail := allocMultiple_asserts smallCfg_ok hm
      (show 0x2000 % smallCfg.pagesz = 0 by decide) rfl (show _ = 2 from rfl) (by decide)
      (show Along _ _ (fun _ => []) _ _ _ from ⟨trivial, trivial, trivial⟩)
      ⟨trivial, trivial, trivial⟩ (.inr rfl)
    have hall : exec smallCfg s (.allocMultiple 0x2000 fun _ => []) = .error .assertFailed := by
      simp only [exec, hfail]
      rfl
    simp only [after, ok_bind hok, hall]
    rfl

end Dgos.L2.PhysAlloc
