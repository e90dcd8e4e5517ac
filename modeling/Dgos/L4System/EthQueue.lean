import Dgos.Core.Chain

/-!
# The packet queue (kernel/net/eth_q.cc)

The links lead from `tail`, the oldest packet, to `head`, the newest one. `ethq_dequeue_all` cuts
the link of `tail` and returns `head`.

Results:
* `Reach.rep`: after every sequence of operations the queue holds the packets of the list that the
  same operations build.
* `fifo_right_iff`: then the count, `ethq_enqueue` and `ethq_dequeue` are right, and
  `ethq_dequeue_all` is right exactly when at most one packet is queued.
-/
namespace Dgos.L4.EthQueue

open Function List

/-- `ethq_queue_t` and the links of the packets. -/
structure Queue (P : Type) where
  head : Option P
  tail : Option P
  count : Nat
  next : P → Option P

variable {P : Type} {l : List P}

/-- The queue holds the packets of `l`, oldest first. -/
structure Rep (q : Queue P) (l : List P) : Prop where
  chain : Chain q.next q.tail l
  head : q.head = l.getLast?
  count : q.count = l.length
  nodup : l.Nodup

theorem getLast?_ne {pkt pkt' : P} (h : (pkt :: pkt' :: l).Nodup) :
    (pkt :: pkt' :: l).getLast? ≠ some pkt :=
  fun heq => (nodup_cons.mp h).1 (mem_of_getLast? heq)

variable [DecidableEq P]

/-- `none` if a null `head` is dereferenced.
mirrors eth_q.cc:193-210 -/
def ethqEnqueue (q : Queue P) (pkt : P) : Option (Queue P) :=
  let next := update q.next pkt none
  match q.head, q.tail with
  | none, none => some ⟨pkt, pkt, q.count + 1, next⟩
  | none, some _ => none
  | some head, tail => some ⟨pkt, tail, q.count + 1, update (update next head pkt) pkt none⟩

/-- mirrors eth_q.cc:212-229 -/
def ethqDequeue (q : Queue P) : Option P × Queue P :=
  match q.tail with
  | none => (none, q)
  | some tail =>
    let next := update q.next tail none
    if q.head ≠ tail then (tail, ⟨q.head, q.next tail, q.count - 1, next⟩)
    else (tail, ⟨none, none, q.count - 1, next⟩)

/-- mirrors eth_q.cc:231-240 -/
def ethqDequeueAll (q : Queue P) : Option P × Queue P :=
  (q.head, ⟨none, none, 0, q.tail.elim q.next fun tail => update q.next tail none⟩)

/-! ## FIFO -/

/-- The queues of all sequences of operations, each with the packets that are queued then. -/
inductive Reach : Queue P → List P → Prop
  | init (next : P → Option P) : Reach ⟨none, none, 0, next⟩ []
  | enqueue {q q' l pkt} : Reach q l → pkt ∉ l → ethqEnqueue q pkt = some q' → Reach q' (l ++ [pkt])
  | dequeue {q l} : Reach q l → Reach (ethqDequeue q).2 l.tail
  | dequeueAll {q l} : Reach q l → Reach (ethqDequeueAll q).2 []

inductive Op (P : Type)
  | count
  | enqueue (pkt : P)
  | dequeue
  | dequeueAll

/-- What the operation answers is right. -/
def Right (q : Queue P) (l : List P) : Op P → Prop
  | .count => q.count = l.length
  | .enqueue pkt => pkt ∉ l → ethqEnqueue q pkt ≠ none
  | .dequeue => (ethqDequeue q).1 = l.head?
  | .dequeueAll => Chain (ethqDequeueAll q).2.next (ethqDequeueAll q).1 l

variable {q : Queue P}

theorem Rep.enqueue (h : Rep q l) {pkt : P} (hpkt : pkt ∉ l) :
    ∃ q', ethqEnqueue q pkt = some q' ∧ Rep q' (l ++ [pkt]) := by
  obtain ⟨head, tail, count, next⟩ := q
  obtain ⟨hchain, rfl, rfl, hnodup⟩ := h
  have hnodup' := hnodup.concat hpkt
  rw [concat_eq_append] at hnodup'
  obtain rfl | ⟨l, last, rfl⟩ := eq_nil_or_concat' l
  · cases hchain
    exact ⟨_, rfl, ⟨rfl, update_self ..⟩, rfl, rfl, hnodup'⟩
  · have hne : pkt ≠ last := fun heq => hpkt (by simp [heq])
    simp only [ethqEnqueue, getLast?_concat]
    refine ⟨_, rfl, ?_, by simp, by simp, hnodup'⟩
    rw [update_comm hne, update_idem, update_comm hne.symm]
    exact (hchain.update_of_not_mem hpkt).snoc hnodup hpkt (update_self ..)

theorem Rep.dequeue (h : Rep q l) : (ethqDequeue q).1 = l.head? ∧ Rep (ethqDequeue q).2 l.tail := by
  obtain ⟨head, tail, count, next⟩ := q
  obtain ⟨hchain, rfl, rfl, hnodup⟩ := h
  cases l with
  | nil =>
    cases hchain
    exact ⟨rfl, rfl, rfl, rfl, hnodup⟩
  | cons pkt l =>
    obtain ⟨rfl, hrest⟩ := hchain
    obtain ⟨hpkt, hnodup'⟩ := nodup_cons.mp hnodup
    simp only [ethqDequeue]
    obtain _ | ⟨pkt', l⟩ := l
    · rw [if_neg (by simp)]
      exact ⟨rfl, rfl, rfl, rfl, hnodup'⟩
    · rw [if_pos (getLast?_ne hnodup)]
      exact ⟨rfl, hrest.update_of_not_mem hpkt, rfl, rfl, hnodup'⟩

theorem Rep.dequeueAll_iff (h : Rep q l) :
    Chain (ethqDequeueAll q).2.next (ethqDequeueAll q).1 l ↔ l.length ≤ 1 := by
  obtain ⟨head, tail, count, next⟩ := q
  obtain ⟨hchain, rfl, rfl, hnodup⟩ := h
  obtain _ | ⟨pkt, _ | ⟨pkt', l⟩⟩ := l
  · simp [ethqDequeueAll]
  · obtain ⟨rfl, -⟩ := hchain
    simp [ethqDequeueAll]
  · exact iff_of_false (fun hall => getLast?_ne hnodup hall.1) (by simp)

theorem Reach.rep (h : Reach q l) : Rep q l := by
  induction h with
  | init next => exact ⟨rfl, rfl, rfl, nodup_nil⟩
  | enqueue _ hpkt hq ih =>
    obtain ⟨q'', hq'', hrep⟩ := ih.enqueue hpkt
    cases hq.symm.trans hq''
    exact hrep
  | dequeue _ ih => exact ih.dequeue.2
  | dequeueAll _ _ => exact ⟨rfl, rfl, rfl, nodup_nil⟩

/-- **The packet queue.** After every sequence of operations, every next one is right, but for
`ethq_dequeue_all` with more than one packet. -/
theorem fifo_right_iff (q : Queue P) (l : List P) (h : Reach q l) (op : Op P) :
    Right q l op ↔ (op = .dequeueAll → l.length ≤ 1) := by
  cases op with
  | count => exact iff_of_true h.rep.count nofun
  | enqueue pkt =>
    refine iff_of_true (fun hpkt => ?_) nofun
    obtain ⟨q', hq', -⟩ := h.rep.enqueue hpkt
    rw [hq']
    exact Option.some_ne_none q'
  | dequeue => exact iff_of_true h.rep.dequeue.1 nofun
  | dequeueAll => exact h.rep.dequeueAll_iff.trans ⟨fun hle _ => hle, fun hle => hle rfl⟩

theorem fifo_right_one : ∃ q : Queue Nat, Reach q [2] ∧ Right q [2] .dequeueAll := by
  have hreach : Reach _ [1, 2] := .enqueue (.enqueue (.init fun _ => none) not_mem_nil rfl)
    (by decide) rfl
  exact ⟨_, hreach.dequeue, (fifo_right_iff _ _ hreach.dequeue .dequeueAll).mpr fun _ => le_rfl⟩

/-- Of two packets only the newer one is returned. -/
theorem older_packet_lost : ∃ q : Queue Nat, Reach q [1, 2] ∧
    (ethqDequeueAll q).1 = some 2 ∧ (ethqDequeueAll q).2.next 2 = none ∧ ¬ Right q [1, 2] .dequeueAll := by
  have hreach : Reach _ [1, 2] := .enqueue (.enqueue (.init fun _ => none) not_mem_nil rfl)
    (by decide) rfl
  exact ⟨_, hreach, rfl, rfl, fun h => absurd (hreach.rep.dequeueAll_iff.mp h) (by decide)⟩

end Dgos.L4.EthQueue
