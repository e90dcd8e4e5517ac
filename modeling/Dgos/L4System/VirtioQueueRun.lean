import Dgos.L4System.VirtioQueue

/-!
# Runs of the virtio queue

`Rep` gives the lists behind a state: the free list, the heads that are posted and not yet taken
by the device, and the heads that are handed back and not yet recycled. Every step of the code
and of the device is one change of these lists.

Results:
* `queue_right`: in every state a run reaches, every descriptor is in one place, the free count
  is the length of the free list, every posted chain is in flight or was delivered once to its
  completion object, and `recycle_used` delivers everything the device has completed.
-/
namespace Dgos.L4.VirtioQueue

open List Function Int Nat
open Post (ids)
open Option (some ite_none_right_eq_some)
open Nat (mod_add_mod mod_eq_of_lt mod_lt)

/-! ## Chains of descriptors -/

/-- The descriptors are one chain of the table. -/
def Linked (tab : Nat → Desc) : List Nat → Prop
  | [] => False
  | [a] => (tab a).chained = false
  | a :: b :: ids => (tab a).chained = true ∧ (tab a).next = b ∧ Linked tab (b :: ids)

theorem ptr_natCast {size id : Nat} (h : id < size) : ptr size id = some id := by
  rw [ptr, if_pos (by omega), toNat_natCast]

section Linked

variable {tab tab' : Nat → Desc} {ids : List Nat}

theorem Linked.ne_nil (h : Linked tab ids) : ids ≠ [] := by
  rintro rfl
  exact h

theorem Linked.frame (h : Linked tab ids) (hf : ∀ id ∈ ids, tab' id = tab id) :
    Linked tab' ids := by
  induction ids with
  | nil => exact h
  | cons a ids ih =>
    have ha := hf a mem_cons_self
    cases ids with
    | nil => simpa [Linked, ha] using h
    | cons b ids =>
      obtain ⟨h1, h2, h3⟩ := h
      exact ⟨ha ▸ h1, ha ▸ h2, ih h3 fun id hid => hf id (mem_cons_of_mem a hid)⟩

/-- The loop of `recycle_used` finds the end of a chain and counts its descriptors. -/
theorem chainEnd_eq (h : Linked tab ids) {fuel freed head : Nat} (hh : ids.head? = some head)
    (hf : ids.length ≤ fuel) :
    ∃ last, ids.getLast? = some last ∧
      chainEnd tab fuel head freed = some (last, freed + (ids.length - 1)) := by
  induction ids generalizing fuel freed head with
  | nil => cases hh
  | cons a ids ih =>
    cases hh
    obtain ⟨fuel, rfl⟩ : ∃ n, fuel = n + 1 := ⟨fuel - 1, by simp at hf; omega⟩
    cases ids with
    | nil => exact ⟨a, rfl, by simp [chainEnd, show (tab a).chained = false from h]⟩
    | cons b ids =>
      obtain ⟨h1, h2, h3⟩ := h
      obtain ⟨last, hl, he⟩ : ∃ last, (b :: ids).getLast? = some last ∧
          chainEnd tab fuel b (freed + 1) = some (last, freed + 1 + ((b :: ids).length - 1)) :=
        ih h3 rfl (by simpa using hf)
      refine ⟨last, by simpa using hl, ?_⟩
      rw [chainEnd, if_pos h1, h2, he]
      simp only [length_cons]
      congr 2
      omega

/-- A chain whose end is linked to the free list is the beginning of a longer one. -/
theorem Linked.chain {size : Nat} {first : Option Nat} {free : List Nat} {last : Nat}
    (h : Linked tab ids) (hlt : ∀ id ∈ ids, id < size) (hlast : ids.getLast? = some last)
    (hfree : Chain (link size tab') first free)
    (hend : link size tab' last = first) (hf : ∀ id ∈ ids, id ≠ last → tab' id = tab id)
    (hnd : ids.Nodup) : Chain (link size tab') ids.head? (ids ++ free) := by
  induction ids with
  | nil => exact absurd rfl h.ne_nil
  | cons a ids ih =>
    refine ⟨rfl, ?_⟩
    cases ids with
    | nil =>
      obtain rfl : a = last := some.inj hlast
      rw [hend]
      exact hfree
    | cons b ids =>
      obtain ⟨h1, h2, h3⟩ := h
      have hlast' : (b :: ids).getLast? = some last := by simpa using hlast
      have hne : a ≠ last := by
        rintro rfl
        exact (nodup_cons.1 hnd).1 (mem_of_getLast? hlast')
      rw [link, hf a mem_cons_self hne, h2, ptr_natCast (hlt b (by simp))]
      exact ih h3 (fun id hid => hlt id (mem_cons_of_mem a hid)) hlast'
        (fun id hid => hf id (mem_cons_of_mem a hid)) (nodup_cons.1 hnd).2

end Linked

/-! ## Representation -/

/-- The lists behind a state: the free list, the heads the device has not taken, and those it has
handed back. -/
structure Rep (size : Nat) (s : St) (free avail : List Nat) (used : List (Nat × Nat)) : Prop where
  next16 : ∀ id < size, (s.descTab id).next < idxMod
  first16 : -1 ≤ s.descFirstFree ∧ s.descFirstFree < idxMod
  chain : Chain (link size s.descTab) (ptr size s.descFirstFree) free
  places : (free ++ s.filling ++ s.flight.flatMap Post.ids).Perm (List.range size)
  linked : ∀ p ∈ s.flight, Linked s.descTab p.ids
  completion : ∀ p ∈ s.flight, ∀ id, p.ids.head? = some id → s.completions id = some p.iocp
  availRing : RingHolds s.availRing size s.devTail avail
  availIdx : s.devTail < idxMod ∧ s.availIdx = (s.devTail + avail.length) % idxMod
  usedRing : RingHolds s.usedRing size s.usedTail used
  usedIdx : s.usedTail < idxMod ∧ s.usedIdx = (s.usedTail + used.length) % idxMod
  heads : (s.flight.map fun p => p.ids.head?).Perm
    ((avail ++ s.working ++ used.map Prod.fst).map some)
  tickets : s.posts.map Post.ticket = List.range s.posts.length
  once : (s.flight.map some ++ s.delivered.map Delivery.post).Perm (s.posts.map some)
  object : ∀ d ∈ s.delivered, ∀ post, d.post = some post → d.iocp = some post.iocp
  order : s.completed = (s.delivered.map fun d => (d.post, d.len)) ++
    used.map fun u => (s.postOf u.1, u.2)

structure Inv (k : Nat) (s : St) : Prop where
  size : k ≤ 15
  pending : s.pendingCompletions = []
  rep : ∃ free avail used, Rep (2 ^ k) s free avail used ∧ free.length = s.descFreeCount

instance disjointIds_symm : Std.Symm (Function.onFun List.Disjoint Post.ids) :=
  ⟨fun _ _ hab _ h1 h2 => hab h2 h1⟩

theorem length_le_flatMap {posts : List Post} (h : ∀ p ∈ posts, p.ids ≠ []) :
    posts.length ≤ (posts.flatMap ids).length := by
  induction posts with
  | nil => simp
  | cons p posts ih =>
    have h1 := length_pos_iff.2 (h p mem_cons_self)
    have h2 := ih fun q hq => h q (mem_cons_of_mem p hq)
    rw [flatMap_cons, length_append, length_cons]
    omega

variable {size k : Nat} {s s' : St} {free avail : List Nat} {used : List (Nat × Nat)}

section Facts

variable {id : Nat} {p : Post} (h : Rep size s free avail used)
include h

theorem Rep.nodup : (free ++ s.filling ++ s.flight.flatMap ids).Nodup :=
  h.places.nodup_iff.2 nodup_range

theorem Rep.lt (hid : id ∈ free ++ s.filling ++ s.flight.flatMap ids) : id < size :=
  mem_range.1 (h.places.mem_iff.1 hid)

theorem Rep.mem_flight (hp : p ∈ s.flight)
    (hid : id ∈ p.ids) : id < size ∧ id ∉ free ∧ id ∉ s.filling := by
  have hmem : id ∈ s.flight.flatMap ids := mem_flatMap.2 ⟨p, hp, hid⟩
  have hnd := nodup_append.1 h.nodup
  refine ⟨h.lt (mem_append_right _ hmem), fun hf => ?_, fun hf => ?_⟩
  · exact hnd.2.2 id (mem_append_left _ hf) id hmem rfl
  · exact hnd.2.2 id (mem_append_right _ hf) id hmem rfl

theorem Rep.eq_of_mem {q : Post} (hp : p ∈ s.flight)
    (hq : q ∈ s.flight) (hip : id ∈ p.ids) (hiq : id ∈ q.ids) : p = q := by
  have hnd := (nodup_flatMap.1 (nodup_append.1 h.nodup).2.1).2
  by_contra hne
  exact hnd.forall hp hq hne hip hiq

/-- A chain is found by its head, also among fewer chains. -/
theorem Rep.find?_eq {l : List Post} (hl : l ⊆ s.flight)
    (hp : p ∈ l) (hid : p.ids.head? = some id) :
    l.find? (·.ids.head? = some id) = some p := by
  cases hf : l.find? (·.ids.head? = some id) with
  | none =>
    have := find?_eq_none.1 hf p hp
    simp [hid] at this
  | some q =>
    have hq := mem_of_find?_eq_some hf
    have hqid : q.ids.head? = some id := by simpa using find?_some hf
    rw [h.eq_of_mem (hl hq) (hl hp) (mem_of_head? hqid) (mem_of_head? hid)]

theorem Rep.postOf_eq (hp : p ∈ s.flight) (hid : p.ids.head? = some id) : s.postOf id = some p :=
  h.find?_eq (Subset.refl _) hp hid

/-- A head in one of the rings or at the device is the head of a chain in flight. -/
theorem Rep.exists_post (hid : id ∈ avail ++ s.working ++ used.map Prod.fst) :
    ∃ p ∈ s.flight, p.ids.head? = some id := by
  have : some id ∈ s.flight.map fun p => p.ids.head? :=
    h.heads.mem_iff.2 (mem_map_of_mem hid)
  obtain ⟨p, hp, he⟩ := mem_map.1 this
  exact ⟨p, hp, he⟩

theorem Rep.split (hp : p ∈ s.flight) (hid : p.ids.head? = some id) :
    ∃ l r, s.flight = l ++ p :: r ∧ s.flight.eraseP (·.ids.head? = some id) = l ++ r ∧
      ∀ q ∈ l ++ r, ∀ j ∈ q.ids, j ∉ p.ids := by
  obtain ⟨q, l, r, -, hq, hflight, herase⟩ :=
    @exists_of_eraseP _ (fun p : Post => decide (p.ids.head? = some id)) _ _ hp (by simpa using hid)
  obtain rfl : q = p := h.eq_of_mem (by simp [hflight]) hp
    (mem_of_head? (by simpa using hq)) (mem_of_head? hid)
  refine ⟨l, r, hflight, herase, fun p hp j hj hjq => ?_⟩
  have hdis := (nodup_flatMap.1 (nodup_append.1 h.nodup).2.1).2
  rw [hflight, perm_middle.pairwise_iff fun hab => disjointIds_symm.symm _ _ hab,
    pairwise_cons] at hdis
  exact hdis.1 p hp hjq hj

theorem Rep.flight_length : s.flight.length = avail.length + s.working.length + used.length := by
  simpa [add_assoc] using h.heads.length_eq

theorem Rep.length_le : avail.length + s.working.length + used.length ≤ size := by
  have h1 := h.flight_length
  have h2 : s.flight.length ≤ (s.flight.flatMap ids).length := by
    exact length_le_flatMap fun p hp => (h.linked p hp).ne_nil
  have h3 := h.places.length_eq
  simp only [length_append, length_range] at h3
  omega

theorem Rep.setDesc (id : Nat) (desc : Desc) (hfree : id ∉ free)
    (hflight : ∀ p ∈ s.flight, id ∉ p.ids) (hn : desc.next < idxMod) :
    Rep size { s with descTab := update s.descTab id desc } free avail used := by
  have hne : ∀ {j}, j ≠ id → update s.descTab id desc j = s.descTab j :=
    fun hj => update_of_ne hj _ _
  refine { h with next16 := fun j hj => ?_, chain := ?_, linked := fun p hp => ?_ }
  · by_cases hji : j = id
    · simpa [hji] using hn
    · exact (congrArg Desc.next (hne hji)).symm ▸ h.next16 j hj
  · refine h.chain.frame fun j hj => ?_
    simp only [link]
    rw [hne (ne_of_mem_of_not_mem hj hfree)]
  · exact (h.linked p hp).frame fun j hj => hne (ne_of_mem_of_not_mem hj (hflight p hp))

theorem Rep.fill {desc : Desc} (hid : id ∈ s.filling) (hn : desc.next < idxMod) :
    Rep size { s with descTab := update s.descTab id desc } free avail used := by
  have hnd := nodup_append.1 (nodup_append.1 h.nodup).1
  refine h.setDesc id desc (fun hf => hnd.2.2 id hf id hid rfl) (fun p hp hmem => ?_) hn
  exact (h.mem_flight hp hmem).2.2 hid

end Facts

/-! ## The steps of the driver -/

theorem Rep.takeFree {a : Nat} (h : Rep size s (a :: free) avail used) (write : Bool) :
    Rep size (takeFree s write) free avail used := by
  obtain ⟨hfirst, hchain⟩ := h.chain
  have hnd := h.nodup
  simp only [cons_append, nodup_cons] at hnd
  have ha : a < size := h.lt (by simp)
  have hid : s.descFirstFree.toNat = a :=
    some.inj (ite_none_right_eq_some.1 hfirst).2
  have hset := h.next16 a ha
  -- the list without its first descriptor, which may now be written
  have hrest : Rep size { s with descFirstFree := (s.descTab a).next, filling := a :: s.filling }
      free avail used := by
    refine { h with first16 := ⟨by simp only; omega, by simp only; omega⟩, chain := hchain,
                    places := ?_ }
    exact ((@perm_middle _ _ free).append_right _).trans h.places
  have hdone := hrest.setDesc a ⟨0, 0, false, write, idxMod - 1⟩
    (fun hf => hnd.1 (by simp [hf])) (fun p hp hmem => (h.mem_flight hp hmem).2.1 (by simp))
    (sub_lt (by decide) one_pos)
  rw [VirtioQueue.takeFree, hid]
  exact hdone

theorem Rep.allocLoop (count : Nat) (h : Rep size s free avail used) (hc : count ≤ free.length) :
    Rep size (allocLoop count s) (free.drop count) avail used := by
  induction count generalizing s free with
  | zero => exact h
  | succ count ih =>
    cases free with
    | nil => simp at hc
    | cons a free => exact ih (h.takeFree false) (by simpa using hc)

theorem Inv.allocDesc (hi : Inv k s) (write : Bool) : Inv k (allocDesc s write) := by
  obtain ⟨hk, hp, free, avail, used, h, hc⟩ := hi
  unfold VirtioQueue.allocDesc
  split
  · exact ⟨hk, hp, free, avail, used, h, hc⟩
  cases free with
  | nil => exact absurd hc.symm ‹_›
  | cons a free =>
    have h' : Rep (2 ^ k) { s with descFreeCount := s.descFreeCount - 1 } (a :: free) avail
        used := { h with }
    refine ⟨hk, hp, free, avail, used, h'.takeFree write, ?_⟩
    simp only [length_cons, VirtioQueue.takeFree] at hc ⊢
    omega

theorem allocLoop_count (count : Nat) : ∀ s : St,
    (allocLoop count s).descFreeCount = s.descFreeCount ∧
      (allocLoop count s).pendingCompletions = s.pendingCompletions := by
  induction count with
  | zero => exact fun s => ⟨rfl, rfl⟩
  | succ count ih => exact fun s => ih _

theorem Inv.allocMultiple {count : Nat} (hi : Inv k s)
    (hs : allocMultiple s count = some s') : Inv k s' := by
  obtain ⟨-, hs⟩ := Option.ite_none_left_eq_some.1 hs
  split at hs
  · exact some.inj hs ▸ hi
  cases hs
  obtain ⟨hk, hp, free, avail, used, h, hc⟩ := hi
  have h' : Rep (2 ^ k) { s with descFreeCount := s.descFreeCount - count } free avail used :=
    { h with }
  obtain ⟨h1, h2⟩ := allocLoop_count count { s with descFreeCount := s.descFreeCount - count }
  refine ⟨hk, h2.trans hp, free.drop count, avail, used, h'.allocLoop count (by omega), ?_⟩
  rw [h1, length_drop, hc]

/-! ## Posting -/

section Enqueue

variable {tab : Nat → Desc} {iocp : Nat}

/-- The loop is inside the chain `cur`. -/
structure EnqOk (iocp : Nat) (cur : List Nat) (q : Enq) : Prop where
  skip : q.skip = true ↔ cur ≠ []
  start : cur ≠ [] → q.chainStart = cur.head?
  told : ∀ id, cur.head? = some id → q.completions id = some iocp

/-- One round: the chain goes on, or its head is written to the ring. -/
theorem enqueueOne_eq (size : Nat) (tab : Nat → Desc) {cur : List Nat} {q : Enq}
    (h : EnqOk iocp cur q) (id : Nat) :
    ∃ head comps, (cur ++ [id]).head? = some head ∧ comps head = some iocp ∧
      (∀ j ≠ id, comps j = q.completions j) ∧
      (∀ j, q.completions j = some iocp → comps j = some iocp) ∧
      enqueueOne size tab iocp q id =
        if (tab id).chained then ⟨true, some head, comps, q.availRing, q.availHead⟩
        else ⟨false, some head, comps,
          update q.availRing (q.availHead % size) head, q.availHead + 1⟩ := by
  cases cur with
  | nil =>
    have hskip : q.skip = false := by simpa using h.skip
    refine ⟨id, update q.completions id (some iocp), rfl, by simp,
      fun j hj => update_of_ne hj _ _, fun j hj => ?_, ?_⟩
    · by_cases hji : j = id <;> simp [hji, hj]
    · cases hc : (tab id).chained <;> simp [enqueueOne, hskip, hc]
  | cons a cur =>
    have hskip : q.skip = true := h.skip.2 (by simp)
    have hstart : q.chainStart = some a := h.start (by simp)
    refine ⟨a, q.completions, rfl, h.told a rfl, fun _ _ => rfl, fun _ hj => hj, ?_⟩
    cases hc : (tab id).chained <;> simp [enqueueOne, hskip, hstart, hc]

/-- The whole loop: the heads of the chains are behind what the ring held. -/
theorem enqueue_loop {lo : Nat} (descs : List Nat) : ∀ (cur l : List Nat) (q : Enq),
    EnqOk iocp cur q → RingHolds q.availRing size lo l →
    q.availHead % size = (lo + l.length) % size →
    l.length + (chainsOf tab cur descs).length ≤ size →
    ∃ heads r, descs.foldl (enqueueOne size tab iocp) q = r ∧
      heads.map some = (chainsOf tab cur descs).map head? ∧
      r.availHead = q.availHead + heads.length ∧
      RingHolds r.availRing size lo (l ++ heads) ∧
      (∀ id ∉ descs, r.completions id = q.completions id) ∧
      (∀ id, q.completions id = some iocp → r.completions id = some iocp) ∧
      ∀ ids ∈ chainsOf tab cur descs, ∀ id, ids.head? = some id → r.completions id = some iocp := by
  induction descs with
  | nil =>
    intro cur l q hq hl _ _
    exact ⟨[], q, rfl, rfl, rfl, by simpa using hl, fun _ _ => rfl, fun _ h => h,
      by simp [chainsOf]⟩
  | cons id descs ih =>
    intro cur l q hq hl hhead hroom
    obtain ⟨head, comps, hh, htold, hother, hkeep, heq⟩ := enqueueOne_eq size tab hq id
    rw [foldl_cons, heq]
    rw [chainsOf] at hroom ⊢
    by_cases hc : (tab id).chained
    · simp only [if_pos hc] at hroom ⊢
      have hq' : EnqOk iocp (cur ++ [id]) ⟨true, some head, comps, q.availRing, q.availHead⟩ :=
        ⟨by simp, fun _ => hh.symm, fun j hj => some.inj (hh.symm.trans hj) ▸ htold⟩
      obtain ⟨heads, r, hr, h1, h2, h3, h4, h5, h6⟩ := ih _ l _ hq' hl hhead hroom
      refine ⟨heads, r, hr, h1, h2, h3, fun j hj => ?_, fun j hj => h5 j (hkeep j hj), h6⟩
      rw [mem_cons, not_or] at hj
      exact (h4 j hj.2).trans (hother j hj.1)
    · simp only [if_neg hc, length_cons] at hroom ⊢
      have hq' : EnqOk iocp [] ⟨false, some head, comps,
          update q.availRing (q.availHead % size) head, q.availHead + 1⟩ :=
        ⟨by simp, nofun, nofun⟩
      have hpush : RingHolds (update q.availRing (q.availHead % size) head) size lo
          (l ++ [head]) := by
        rw [hhead]
        exact hl.push (by omega)
      obtain ⟨heads, r, hr, h1, h2, h3, h4, h5, h6⟩ := ih [] (l ++ [head]) _ hq' hpush
        (by rw [add_mod, hhead, length_append, length_singleton, ← add_assoc,
          add_mod (lo + l.length)])
        (by simpa [add_assoc, add_comm 1] using hroom)
      refine ⟨head :: heads, r, hr, ?_, ?_, ?_, fun j hj => ?_, fun j hj => h5 j (hkeep j hj), ?_⟩
      · simp [h1, hh]
      · simp only [h2, length_cons]
        omega
      · simpa using h3
      · rw [mem_cons, not_or] at hj
        exact (h4 j hj.2).trans (hother j hj.1)
      · intro ids hids j hj
        rcases mem_cons.1 hids with rfl | hids
        · exact h5 j (some.inj (hh.symm.trans hj) ▸ htold)
        · exact h6 ids hids j hj

/-- The chains are the descriptors that are passed, but for an unfinished chain. -/
theorem chainsOf_flatten (descs : List Nat) : ∀ cur,
    (chainsOf tab cur descs).flatten <+: cur ++ descs := by
  induction descs with
  | nil => exact fun cur => nil_prefix
  | cons id descs ih =>
    intro cur
    rw [chainsOf]
    split
    · simpa using ih (cur ++ [id])
    · rw [append_cons cur id descs]
      exact (prefix_append_right_inj _).2 (by simpa using ih [])

variable {descs : List Nat}

theorem Follows.linked {id : Nat} : ∀ {cur : List Nat},
    Follows tab (cur ++ id :: descs) → (∀ c ∈ cur, (tab c).chained = true) →
    (tab id).chained = false → Linked tab (cur ++ [id])
  | [], _, _, hid => hid
  | [a], h, hcur, hid => ⟨hcur a (by simp), h.1 (hcur a (by simp)), hid⟩
  | a :: b :: cur, h, hcur, hid =>
    have hrest : Linked tab ((b :: cur) ++ [id]) :=
      Follows.linked h.2 (fun c hc => hcur c (mem_cons_of_mem a hc)) hid
    ⟨hcur a (by simp), h.1 (hcur a (by simp)), hrest⟩

theorem Follows.tail {a : Nat} (h : Follows tab (a :: descs)) : Follows tab descs := by
  cases descs with
  | nil => trivial
  | cons b descs => exact h.2

theorem Follows.suffix : ∀ {cur : List Nat}, Follows tab (cur ++ descs) → Follows tab descs
  | [], h => h
  | _ :: _, h => Follows.suffix (Follows.tail h)

theorem chainsOf_linked (descs : List Nat) : ∀ cur, Follows tab (cur ++ descs) →
    (∀ c ∈ cur, (tab c).chained = true) → ∀ ids ∈ chainsOf tab cur descs, Linked tab ids := by
  induction descs with
  | nil => exact nofun
  | cons id descs ih =>
    intro cur hf hcur ids hids
    rw [chainsOf] at hids
    by_cases hc : (tab id).chained
    · rw [if_pos hc] at hids
      exact ih (cur ++ [id]) (by simpa using hf)
        (forall_mem_append.2 ⟨hcur, forall_mem_singleton.2 hc⟩) ids hids
    · rw [if_neg hc] at hids
      rcases mem_cons.1 hids with rfl | hids
      · exact hf.linked hcur (by simpa using hc)
      · exact ih [] hf.suffix.tail nofun ids hids

theorem newPosts_spec (chains : List (List Nat)) : ∀ ticket,
    (newPosts iocp ticket chains).map ids = chains ∧
    (newPosts iocp ticket chains).map Post.ticket = range' ticket chains.length ∧
    ∀ p ∈ newPosts iocp ticket chains, p.iocp = iocp := by
  induction chains with
  | nil => exact fun _ => ⟨rfl, rfl, nofun⟩
  | cons ids chains ih =>
    intro ticket
    obtain ⟨h1, h2, h3⟩ := ih (ticket + 1)
    exact ⟨congrArg (ids :: ·) h1, congrArg (ticket :: ·) h2, forall_mem_cons.2 ⟨rfl, h3⟩⟩

theorem filter_append_perm_of_nodup {l m : List Nat} (hl : l.Nodup) (hm : m.Nodup)
    (hsub : ∀ a ∈ m, a ∈ l) : (l.filter (· ∉ m) ++ m).Perm l := by
  refine (perm_ext_iff_of_nodup (nodup_append.2 ⟨hl.filter _, hm, by grind⟩) hl).2 fun a => ?_
  grind

theorem Rep.enqueueAvail (h : Rep size s free avail used) (hdvd : size ∣ idxMod) (hnd : descs.Nodup)
    (hsub : ∀ id ∈ descs, id ∈ s.filling) (hf : Follows s.descTab descs) :
    ∃ avail', Rep size (enqueueAvail size s descs iocp) free avail' used := by
  have hlinked := chainsOf_linked descs [] hf nofun
  have hpre : (chainsOf s.descTab [] descs).flatten <+: descs := chainsOf_flatten descs []
  have hloop := @enqueue_loop size s.descTab iocp s.devTail descs [] avail
    ⟨false, none, s.completions, s.availRing, s.availIdx⟩
    ⟨by simp, nofun, nofun⟩ h.availRing
  obtain ⟨hids, hticket, hiocp⟩ :=
    @newPosts_spec iocp (chainsOf s.descTab [] descs) s.posts.length
  simp only [VirtioQueue.enqueueAvail]
  generalize chainsOf s.descTab [] descs = chains at *
  generalize newPosts iocp s.posts.length chains = posts at *
  have hfill : s.filling.Nodup := (nodup_append.1 (nodup_append.1 h.nodup).1).2.1
  have hmem : ∀ p ∈ posts, p.ids ∈ chains := fun p hp => hids ▸ mem_map_of_mem hp
  have hflat : posts.flatMap ids = chains.flatten := by rw [← hids, flatMap_def]
  have hplaces : (free ++ s.filling.filter (· ∉ chains.flatten) ++
      (s.flight ++ posts).flatMap ids).Perm (range size) := by
    have hperm := filter_append_perm_of_nodup hfill (hnd.sublist hpre.sublist)
      fun a ha => hsub a (hpre.subset ha)
    refine Perm.trans (perm_iff_count.2 fun a => ?_) h.places
    have := hperm.count_eq a
    simp only [flatMap_append, hflat, count_append] at this ⊢
    omega
  have hlinked' : ∀ p ∈ s.flight ++ posts, Linked s.descTab p.ids := fun p hp =>
    (mem_append.1 hp).elim (h.linked p) fun hp => hlinked _ (hmem p hp)
  have hroom : avail.length + chains.length ≤ size := by
    have h1 := length_le_flatMap fun p hp => (hlinked' p hp).ne_nil
    have h2 := hplaces.length_eq
    have h3 := congrArg length hids
    have h4 := h.flight_length
    simp only [length_append, length_range, length_map] at h1 h2 h3
    omega
  have hhead : s.availIdx % size = (s.devTail + avail.length) % size := by
    rw [h.availIdx.2, mod_mod_of_dvd _ hdvd]
  obtain ⟨heads, r, hr, hheads, hidx, hring, hother, hkeep, htold⟩ := hloop hhead hroom
  refine ⟨avail ++ heads,
    { h with
      places := hplaces, linked := hlinked', completion := ?completion, availRing := ?availRing,
      availIdx := ?availIdx, heads := ?heads, tickets := ?tickets, once := ?once, order := ?order }⟩
  case completion =>
    intro p hp id hid
    simp only [hr]
    rcases mem_append.1 hp with hp | hp
    · rw [hother id fun hd => (h.mem_flight hp (mem_of_head? hid)).2.2 (hsub id hd)]
      exact h.completion p hp id hid
    · rw [hiocp p hp]
      exact htold p.ids (hmem p hp) id hid
  case availRing => simpa [hr] using hring
  case availIdx =>
    refine ⟨h.availIdx.1, ?_⟩
    simp only [hr, hidx]
    rw [h.availIdx.2, mod_add_mod, length_append, add_assoc]
  case heads =>
    have hnew : posts.map (fun p => p.ids.head?) = heads.map some := by
      rw [hheads, ← hids, map_map]
      rfl
    rw [map_append, hnew]
    refine (h.heads.append_right _).trans (perm_iff_count.2 fun a => ?_)
    simp only [map_append, count_append]
    omega
  case tickets =>
    have hlen := congrArg length hids
    rw [length_map] at hlen
    simp only [map_append, h.tickets, hticket, length_append, hlen]
    simpa [range_eq_range'] using @range'_append_1 0 s.posts.length chains.length
  case once =>
    refine perm_iff_count.2 fun a => ?_
    have := h.once.count_eq a
    simp only [map_append, count_append] at this ⊢
    omega
  case order =>
    rw [h.order]
    congr 1
    refine map_congr_left fun u hu => ?_
    obtain ⟨p, hp, hid⟩ := h.exists_post (mem_append_right _ (mem_map_of_mem hu))
    have hold := h.postOf_eq hp hid
    simp only [St.postOf, find?_append] at hold ⊢
    rw [hold]
    rfl

end Enqueue

/-! ## The device -/

theorem two_pow_dvd (hk : k ≤ 15) : 2 ^ k ∣ idxMod ∧ 2 ^ k < idxMod :=
  ⟨Nat.pow_dvd_pow 2 (by omega), Nat.pow_lt_pow_right (by decide) (by omega)⟩

/-- Indices that run on stand for lists of at most the size of the ring. -/
theorem idx_eq_iff {lo n : Nat} (hlo : lo < idxMod) (hn : n < idxMod) :
    (lo + n) % idxMod = lo ↔ n = 0 := by
  unfold idxMod at *
  omega

theorem Inv.deviceTake (hi : Inv k s) (hs : deviceTake (2 ^ k) s = some s') : Inv k s' := by
  obtain ⟨hk, hp, free, avail, used, h, hc⟩ := hi
  obtain ⟨hne, ⟨⟩⟩ := Option.ite_none_left_eq_some.1 hs
  obtain ⟨hlt, hidx⟩ := h.availIdx
  cases avail with
  | nil => exact absurd (by simp [hidx, mod_eq_of_lt hlt]) hne
  | cons a avail =>
    obtain ⟨ha, hring⟩ := h.availRing
    refine ⟨hk, hp, free, avail, used,
      { h with availRing := ?_, availIdx := ⟨mod_lt _ (by decide), ?_⟩, heads := ?_ }, hc⟩
    · exact (RingHolds.mod_iff (two_pow_dvd hk).1).2 hring
    · simp [hidx, add_assoc, add_comm 1]
    · refine h.heads.trans (Perm.map _ (perm_iff_count.2 fun b => ?_))
      simp only [ha, count_append, cons_append, count_cons, count_nil]
      omega

theorem Inv.deviceComplete (hi : Inv k s) {id len : Nat}
    (hs : deviceComplete (2 ^ k) s id len = some s') : Inv k s' := by
  obtain ⟨hk, hp, free, avail, used, h, hc⟩ := hi
  obtain ⟨hid, ⟨⟩⟩ := ite_none_right_eq_some.1 hs
  obtain ⟨hlt, hidx⟩ := h.usedIdx
  have hroom : used.length < 2 ^ k := by
    have := h.length_le
    have := length_pos_of_mem hid
    omega
  refine ⟨hk, hp, free, avail, used ++ [(id, len)],
    { h with usedRing := ?_, usedIdx := ⟨hlt, ?_⟩, heads := ?_, order := ?_ }, hc⟩
  · have := h.usedRing.push hroom (x := (id, len))
    rwa [← mod_mod_of_dvd _ (two_pow_dvd hk).1, ← hidx] at this
  · simp [hidx, add_assoc]
  · refine h.heads.trans (Perm.map _ (perm_iff_count.2 fun a => ?_))
    have := (perm_cons_erase hid).count_eq a
    simp only [count_append, count_cons, map_append, map_cons, map_nil, count_nil] at this ⊢
    omega
  · simp only [h.order, map_append, append_assoc, map_cons, map_nil]
    rfl

/-! ## Recycling -/

section Recycle

/-- The state `recycle_used` leaves when its loop has come to `tail`. -/
def settled (s : St) (tail : Nat) : St :=
  { s with
    usedTail := tail % idxMod
    delivered := s.delivered ++ s.pendingCompletions
    pendingCompletions := [] }

theorem ptr_mod {first : Int} (hsize : size < idxMod) (h : -1 ≤ first ∧ first < idxMod) :
    ptr size (first % idxMod).toNat = ptr size first := by
  unfold ptr idxMod at *
  obtain ⟨h1, h2⟩ := h
  rcases Int.lt_or_le first 0 with hneg | hpos
  · rw [if_neg (by omega), if_neg (by omega)]
  · rw [emod_eq_of_lt hpos h2, toNat_of_nonneg hpos]

/-- The state after a chain `p` is put back, which leaves `flight` in flight. -/
def putBack (s : St) (p : Post) (id last len : Nat) (flight : List Post) : St :=
  { s with
    descTab := update s.descTab last
      { s.descTab last with next := (s.descFirstFree % idxMod).toNat }
    descFirstFree := id
    descFreeCount := s.descFreeCount + p.ids.length
    completions := update s.completions id none
    pendingCompletions := s.pendingCompletions ++ [⟨some p, some p.iocp, len⟩]
    flight := flight }

variable {tail id len : Nat}

section

variable (h : Rep size (settled s tail) free avail ((id, len) :: used))
  (hz : size ∣ idxMod ∧ size < idxMod)
include h hz

/-- One round puts back the chain whose head is next in the ring. -/
theorem Rep.recycleOne_eq :
    ∃ p l r last, s.flight = l ++ p :: r ∧ p.ids.head? = some id ∧ p.ids.getLast? = some last ∧
      (∀ q ∈ l ++ r, ∀ j ∈ q.ids, j ∉ p.ids) ∧
      recycleOne size s tail = some (putBack s p id last len (l ++ r)) := by
  obtain ⟨p, hp, hid⟩ : ∃ p ∈ s.flight, p.ids.head? = some id := h.exists_post (by simp)
  have hring : s.usedRing (tail % size) = (id, len) := by
    have := h.usedRing.1
    rwa [settled, mod_mod_of_dvd _ hz.1] at this
  have hmod : id % idxMod = id :=
    mod_eq_of_lt (lt_trans (h.mem_flight hp (mem_of_head? hid)).1 hz.2)
  have hlen : p.ids.length ≤ size := by
    have hnd := (nodup_flatMap.1 (nodup_append.1 h.nodup).2.1).1 p hp
    exact length_le_of_nodup_lt hnd fun j hj => (h.mem_flight hp hj).1
  have hlink : Linked s.descTab p.ids := h.linked p hp
  obtain ⟨last, hlast, hend⟩ := @chainEnd_eq _ _ hlink size 1 id hid hlen
  obtain ⟨l, r, hflight, herase, hother⟩ := h.split hp hid
  have hpost : s.postOf id = some p := h.postOf_eq hp hid
  have htold : s.completions id = some p.iocp := h.completion p hp id hid
  have herase : s.flight.eraseP (·.ids.head? = some id) = l ++ r := herase
  have hcount : 1 + (p.ids.length - 1) = p.ids.length :=
    Nat.add_sub_cancel' (length_pos_iff.2 hlink.ne_nil)
  refine ⟨p, l, r, last, hflight, hid, hlast, hother, ?_⟩
  simp only [recycleOne, hring, hmod, hend, hpost, htold, herase, hcount, putBack]
  rfl

theorem Rep.putBack {last : Nat} {p : Post} {l r : List Post} (hflight : s.flight = l ++ p :: r)
    (hid : p.ids.head? = some id) (hlast : p.ids.getLast? = some last)
    (hother : ∀ q ∈ l ++ r, ∀ j ∈ q.ids, j ∉ p.ids) :
    Rep size (settled (putBack s p id last len (l ++ r)) (tail + 1)) (p.ids ++ free) avail
      used := by
  have hp : p ∈ s.flight := by simp [hflight]
  have hsub : l ++ r ⊆ s.flight := by
    intro q hq
    rw [hflight]
    simp only [mem_append, mem_cons] at hq ⊢
    tauto
  have hmem : ∀ j ∈ p.ids, j < size ∧ j ∉ free ∧ j ∉ s.filling := fun j hj => h.mem_flight hp hj
  have hidmem := mem_of_head? hid
  have hlastmem := mem_of_getLast? hlast
  have htab : ∀ j ≠ last, (VirtioQueue.putBack s p id last len (l ++ r)).descTab j = s.descTab j :=
    fun j hj => update_of_ne hj _ _
  have hheads : ((l ++ r).map fun p => p.ids.head?).Perm
      ((avail ++ s.working ++ used.map Prod.fst).map some) := by
    have h1 : (some id :: (l ++ r).map fun p => p.ids.head?).Perm
        (s.flight.map fun p => p.ids.head?) := by
      rw [hflight, ← hid]
      exact (perm_middle.symm.map _ : ((p :: (l ++ r)).map fun p => p.ids.head?).Perm _)
    have h2 := h1.trans h.heads
    simp only [map_append, map_cons, settled] at h2 ⊢
    exact (h2.trans perm_middle).cons_inv
  refine
    { next16 := ?next16, first16 := ?first16, chain := ?chain, places := ?places,
      linked := ?linked, completion := ?completion, availRing := h.availRing,
      availIdx := h.availIdx, usedRing := ?usedRing,
      usedIdx := ⟨mod_lt _ (by decide), ?usedIdx⟩, heads := hheads, tickets := h.tickets,
      once := ?once, object := ?object, order := ?order }
  case next16 =>
    intro j hj
    by_cases hj' : j = last
    · subst hj'
      simp only [settled, VirtioQueue.putBack, update_self]
      unfold idxMod
      omega
    · exact (congrArg Desc.next (htab j hj')).symm ▸ h.next16 j hj
  case first16 =>
    have := (hmem id hidmem).1
    simp only [settled, VirtioQueue.putBack]
    omega
  case chain =>
    have hfree : Chain (link size (VirtioQueue.putBack s p id last len (l ++ r)).descTab)
        (ptr size s.descFirstFree) free :=
      h.chain.frame fun j hj => by
        rw [link, htab j (ne_of_mem_of_not_mem hj (hmem last hlastmem).2.1)]
        rfl
    have hend : link size (VirtioQueue.putBack s p id last len (l ++ r)).descTab last =
        ptr size s.descFirstFree := by
      simp only [link, VirtioQueue.putBack, update_self]
      exact ptr_mod hz.2 h.first16
    have hlinked : Linked s.descTab p.ids := h.linked p hp
    have hchain := hlinked.chain (fun j hj => (hmem j hj).1) hlast hfree hend
      (fun j _ hj => htab j hj) ((nodup_flatMap.1 (nodup_append.1 h.nodup).2.1).1 p hp)
    exact (ptr_natCast (hmem id hidmem).1).trans hid.symm ▸ hchain
  case places =>
    refine Perm.trans ?_ h.places
    refine perm_iff_count.2 fun a => ?_
    simp only [settled, VirtioQueue.putBack, hflight, flatMap_append, flatMap_cons, count_append]
    omega
  case linked =>
    intro q hq
    exact (h.linked q (hsub hq)).frame fun j hj =>
      htab j fun hl => hother q hq j hj (hl ▸ hlastmem)
  case completion =>
    intro q hq j hj
    have hne : j ≠ id := fun he => hother q hq j (mem_of_head? hj) (he ▸ hidmem)
    simp only [settled, VirtioQueue.putBack, update_of_ne hne]
    exact h.completion q (hsub hq) j hj
  case usedRing =>
    have := (RingHolds.mod_iff hz.1).2 h.usedRing.2
    simpa [settled, VirtioQueue.putBack] using this
  case usedIdx =>
    have := h.usedIdx.2
    simp only [settled, mod_add_mod, length_cons, VirtioQueue.putBack] at this ⊢
    rw [this, add_assoc, add_comm 1]
  case once =>
    refine Perm.trans (perm_iff_count.2 fun a => ?_) h.once
    simp only [settled, VirtioQueue.putBack, hflight, map_append, map_cons, map_nil, count_append,
      count_cons, count_nil]
    omega
  case object =>
    simp only [settled, VirtioQueue.putBack, ← append_assoc]
    exact forall_mem_append.2 ⟨h.object, forall_mem_singleton.2 fun post hpost =>
      congrArg (some ·.iocp) (some.inj hpost)⟩
  case order =>
    have hnow : (settled s tail).postOf id = some p := h.postOf_eq hp hid
    refine h.order.trans ?_
    simp only [settled, VirtioQueue.putBack, map_append, map_cons, map_nil,
      append_assoc, cons_append, nil_append] at hnow ⊢
    rw [hnow]
    congr 3
    refine map_congr_left fun u hu => ?_
    have hmem : some u.1 ∈ (l ++ r).map fun p => p.ids.head? :=
      hheads.mem_iff.2 (mem_map_of_mem (mem_append_right _ (mem_map_of_mem hu)))
    obtain ⟨q, hq, hu⟩ := mem_map.1 hmem
    have hold := h.find?_eq (Subset.refl _) (hsub hq) hu
    have hnew := h.find?_eq hsub hq hu
    simp only [St.postOf]
    rw [hnew]
    exact congrArg (·, u.2) hold

theorem Rep.recycleOne (hc : free.length = s.descFreeCount) :
    ∃ s', recycleOne size s tail = some s' ∧ s'.usedIdx = s.usedIdx ∧
      ∃ free', Rep size (settled s' (tail + 1)) free' avail used ∧
        free'.length = s'.descFreeCount := by
  obtain ⟨p, l, r, last, hflight, hid, hlast, hother, heq⟩ := h.recycleOne_eq hz
  refine ⟨_, heq, rfl, p.ids ++ free, h.putBack hz hflight hid hlast hother, ?_⟩
  simp [hc, VirtioQueue.putBack, add_comm]

end

/-- The loop comes to the end of the ring of the device. -/
theorem Rep.recycleLoop {doneIdx : Nat} (hz : size ∣ idxMod ∧ size < idxMod) (fuel : Nat) :
    ∀ {s : St} {tail : Nat} {free : List Nat} {used : List (Nat × Nat)},
      Rep size (settled s tail) free avail used → used ≠ [] → used.length ≤ fuel →
      s.usedIdx = doneIdx → free.length = s.descFreeCount →
      ∃ s' tail' free', recycleLoop size doneIdx fuel s tail = some (s', tail') ∧
        Rep size (settled s' tail') free' avail [] ∧ free'.length = s'.descFreeCount := by
  induction fuel with
  | zero => exact fun _ hne hlen => absurd (length_eq_zero_iff.1 (le_zero.1 hlen)) hne
  | succ fuel ih =>
    intro s tail free used h hne hlen hdone hc
    obtain ⟨⟨id, len⟩, used, rfl⟩ := exists_cons_of_ne_nil hne
    obtain ⟨s', heq, hidx, free', h', hc'⟩ := h.recycleOne hz hc
    have hdone' : s'.usedIdx = doneIdx := hidx.trans hdone
    have hlt : used.length < idxMod := by
      have := h'.length_le
      omega
    have hend : (tail + 1) % idxMod = doneIdx ↔ used.length = 0 := by
      have := h'.usedIdx.2
      rw [← idx_eq_iff (mod_lt (tail + 1) (by decide)) hlt, ← hdone', eq_comm]
      exact Eq.congr_left this
    simp only [VirtioQueue.recycleLoop, heq, Option.bind_eq_bind, Option.bind_some]
    cases used with
    | nil =>
      rw [if_neg (not_not.2 (hend.2 rfl))]
      exact ⟨s', tail + 1, free', rfl, h', hc'⟩
    | cons u used =>
      rw [if_pos (mt hend.1 (by simp))]
      exact ih h' (by simp) (by simpa using hlen) hdone' hc'

/-- `recycle_used` comes to an end and leaves nothing the device has handed back. -/
theorem Rep.recycleUsed (h : Rep size s free avail used) (hz : size ∣ idxMod ∧ size < idxMod)
    (hp : s.pendingCompletions = []) (hc : free.length = s.descFreeCount) :
    ∃ s' free', recycleUsed size s = some s' ∧ s'.pendingCompletions = [] ∧
      Rep size s' free' avail [] ∧ free'.length = s'.descFreeCount := by
  obtain ⟨hlt, hidx⟩ := h.usedIdx
  have hlen : used.length < idxMod := by
    have := h.length_le
    omega
  unfold VirtioQueue.recycleUsed
  by_cases hu : used = []
  · subst hu
    rw [if_pos (by simpa [mod_eq_of_lt hlt] using hidx)]
    exact ⟨s, free, rfl, hp, h, hc⟩
  · have hset : settled s s.usedTail = s := by
      rw [settled, hp, append_nil, mod_eq_of_lt hlt, ← hp]
    rw [if_neg fun he => hu (length_eq_zero_iff.1 ((idx_eq_iff hlt hlen).1 (hidx ▸ he)))]
    obtain ⟨s', tail', free', heq, h', hc'⟩ :=
      Rep.recycleLoop hz idxMod (hset.symm ▸ h) hu (le_of_lt hlen) rfl hc
    rw [heq]
    exact ⟨settled s' tail', free', rfl, rfl, h', hc'⟩

end Recycle

/-! ## Runs -/

theorem initLoop_chain {n : Nat} (hn : n ≤ size) (hsize : size < idxMod) :
    ∀ {tab : Nat → Desc} {first : Int} {l : List Nat}, -1 ≤ first ∧ first < idxMod →
      (∀ id, n ≤ id → id < size → (tab id).next < idxMod) → (∀ id ∈ l, n ≤ id) →
      Chain (link size tab) (ptr size first) l →
      ∀ tab' first', initLoop n (tab, first) = (tab', first') →
        (-1 ≤ first' ∧ first' < idxMod) ∧ (∀ id < size, (tab' id).next < idxMod) ∧
        Chain (link size tab') (ptr size first') (List.range n ++ l) := by
  induction n with
  | zero =>
    intro tab first l hfirst hnext _ hl tab' first' h
    obtain ⟨rfl, rfl⟩ := Prod.mk.inj h
    exact ⟨hfirst, fun id => hnext id (zero_le id), hl⟩
  | succ n ih =>
    intro tab first l hfirst hnext hlt hl tab' first' h
    rw [range_succ, append_assoc]
    refine ih (by omega) ⟨by omega, by omega⟩ (fun id hid hids => ?_)
      (forall_mem_append.2 ⟨by simp, fun id hid => le_of_succ_le (hlt id hid)⟩) ?_ tab' first' h
    · by_cases he : id = n
      · subst he
        rw [update_self]
        unfold idxMod
        simp only
        omega
      · rw [update_of_ne he]
        exact hnext id (by omega) hids
    · rw [ptr_natCast (by omega)]
      refine ⟨rfl, ?_⟩
      rw [link, update_self]
      rw [ptr_mod hsize hfirst]
      refine hl.frame fun j hj => ?_
      have : j ≠ n := by
        have := hlt j hj
        omega
      rw [link, update_of_ne this]
      rfl

theorem Init.inv (h : Init k s) : Inv k s := by
  obtain ⟨tab, htab⟩ := h.tab
  have hnil : Chain (link (2 ^ k) tab) (ptr (2 ^ k) (-1)) [] := rfl
  obtain ⟨h1, h2, h3⟩ := initLoop_chain (le_refl _) (two_pow_dvd h.size).2 (by decide)
    (fun id h1 h2 => absurd h1 (not_le.2 h2)) (by simp) hnil _ _ htab.symm
  refine ⟨h.size, h.pending, List.range (2 ^ k), [], [], ?_, by simp [h.count]⟩
  rw [append_nil] at h3
  exact
    { next16 := h2, first16 := h1, chain := h3
      places := by simp [h.filling, h.flight]
      linked := by simp [h.flight]
      completion := by simp [h.flight]
      availRing := trivial
      availIdx := ⟨h.avail.2 ▸ h.avail.1, by simp [h.avail.2, mod_eq_of_lt h.avail.1]⟩
      usedRing := trivial
      usedIdx := ⟨h.used.2 ▸ h.used.1, by simp [h.used.2, mod_eq_of_lt h.used.1]⟩
      heads := by simp [h.flight, h.working]
      tickets := by simp [h.posts]
      once := by simp [h.flight, h.delivered, h.posts]
      object := by simp [h.delivered]
      order := by simp [h.completed, h.delivered] }

theorem Inv.step (hi : Inv k s) {a : Act} (hs : step (2 ^ k) s a = some s') : Inv k s' := by
  cases a with
  | allocDesc write => exact some.inj hs ▸ hi.allocDesc write
  | allocMultiple count => exact hi.allocMultiple hs
  | fill id desc =>
    obtain ⟨hg, ⟨⟩⟩ := ite_none_right_eq_some.1 hs
    obtain ⟨free, avail, used, h, hc⟩ := hi.rep
    exact ⟨hi.size, hi.pending, free, avail, used, h.fill hg.1 hg.2, hc⟩
  | enqueueAvail descs iocp =>
    obtain ⟨hg, ⟨⟩⟩ := ite_none_right_eq_some.1 hs
    obtain ⟨free, avail, used, h, hc⟩ := hi.rep
    obtain ⟨avail', h'⟩ := h.enqueueAvail (two_pow_dvd hi.size).1 hg.1 hg.2.1 hg.2.2
    exact ⟨hi.size, hi.pending, free, avail', used, h', hc⟩
  | recycleUsed =>
    obtain ⟨free, avail, used, h, hc⟩ := hi.rep
    obtain ⟨t, free', ht, hp, h', hc'⟩ := h.recycleUsed (two_pow_dvd hi.size) hi.pending hc
    obtain rfl := some.inj (ht.symm.trans hs)
    exact ⟨hi.size, hp, free', avail, [], h', hc'⟩
  | take => exact hi.deviceTake hs
  | complete id len => exact hi.deviceComplete hs

theorem Inv.inductive (k : Nat) : (lts k).Inductive (Inv k) where
  init _ h := Init.inv h
  step _ _ _ hi hs := Inv.step hi hs

theorem Inv.good (hi : Inv k s) : Good (2 ^ k) s := by
  obtain ⟨free, avail, used, h, hc⟩ := hi.rep
  refine ⟨⟨free, h.chain, hc, h.places⟩, ⟨?_, h.once⟩, h.object, h.order ▸ prefix_append _ _⟩
  exact Nodup.of_map Post.ticket (h.tickets ▸ nodup_range)

/-- In every state a run reaches, every descriptor is in one place, every chain that was posted is
in flight or was delivered once to its completion object, and `recycle_used` delivers what the
device has completed and did not yet deliver. -/
theorem queue_right (h : (lts k).Reachable s) :
    Good (2 ^ k) s ∧ ∃ s', recycleUsed (2 ^ k) s = some s' ∧
      s'.delivered.map (fun d => (d.post, d.len)) = s'.completed := by
  have hi := (Inv.inductive k).reachable s h
  obtain ⟨free, avail, used, hrep, hc⟩ := hi.rep
  obtain ⟨s', free', hs', -, h', -⟩ := hrep.recycleUsed (two_pow_dvd hi.size) hi.pending hc
  exact ⟨hi.good, s', hs', by simpa using h'.order.symm⟩

/-- A queue of four descriptors whose rings are at the last index. -/
def sampleSt : St where
  descTab := (initLoop 4 (fun _ => ⟨0, 0, false, false, 0⟩, -1)).1
  descFirstFree := 0
  descFreeCount := 4
  completions := fun _ => none
  pendingCompletions := []
  availRing := fun _ => 0
  availIdx := 65535
  usedRing := fun _ => (0, 0)
  usedIdx := 65535
  usedTail := 65535
  devTail := 65535
  working := []
  filling := []
  flight := []
  posts := []
  completed := []
  delivered := []

theorem sampleSt_init : Init 2 sampleSt where
  size := by decide
  tab := ⟨fun _ => ⟨0, 0, false, false, 0⟩, rfl⟩
  count := rfl
  pending := rfl
  avail := ⟨by decide, rfl⟩
  used := ⟨by decide, rfl⟩
  working := rfl
  filling := rfl
  flight := rfl
  posts := rfl
  completed := rfl
  delivered := rfl

def sampleActs : List Act :=
  [.allocMultiple 3, .fill 0 ⟨0x1000, 16, true, false, 1⟩, .enqueueAvail [0, 1] 7,
    .enqueueAvail [2] 8, .take, .take, .complete 2 100, .complete 0 200, .recycleUsed]

/-- A chain of two descriptors and one of a single descriptor, with an object each, are completed
in the other order, across the end of the indices. -/
theorem queue_right_sample : ∃ s, (lts 2).Run sampleSt sampleActs s ∧
      s.delivered = [⟨some ⟨1, [2], 8⟩, some 8, 100⟩, ⟨some ⟨0, [0, 1], 7⟩, some 7, 200⟩] ∧
      s.descFreeCount = 4 ∧ Good (2 ^ 2) s := by
  have hrun : (lts 2).Run sampleSt sampleActs _ :=
    .cons rfl (.cons rfl (.cons rfl (.cons rfl (.cons rfl (.cons rfl (.cons rfl (.cons rfl
      (.cons rfl (.nil _)))))))))
  exact ⟨_, hrun, rfl, rfl, (queue_right ⟨sampleSt, _, sampleSt_init, hrun⟩).1⟩

end Dgos.L4.VirtioQueue
