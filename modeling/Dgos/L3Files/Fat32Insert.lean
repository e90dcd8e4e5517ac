import Dgos.L3Files.Fat32Walk

/-!
# Entries for a new file

`dirent_create` looks for the first run of free entries that is long enough, within a cluster of
the directory or in a new one behind the others. What it then writes is a set of entries in use, and
a directory in which long entries are followed by entries in use stays one when it grows.

Results:

* `allocateNear_cases`, `Full.allocateNear` — a free cluster is marked, or there is none
* `iterateDir_insert`, `iterateDir_insert_new` — where the search for free entries stops
* `newEntries_stored`, `newEntries_used` — what the new entries are
* `relink_spec`, `transactCluster_spec` — the clusters of the directory afterwards
-/
namespace Dgos.L3.Fat32

open List Nat

/-! ## Allocating a cluster -/

section Allocate

variable {v : Volume} {st st' : St}

/-- The cluster that `allocate_near` looks at next. -/
def wrap (v : Volume) (candidate : Nat) : Nat :=
  if v.endCluster ≤ candidate ∨ candidate < 2 then 2 else candidate

/-- The volume with a cluster that was cleared and marked as used. -/
def taken (v : Volume) (st : St) (a : Nat) : St :=
  { st with
    fat := setEntry st.fat a 1
    dev := poke st.dev (place v a) (List.replicate v.blockSize 0) }

theorem wrap_ge (v : Volume) (candidate : Nat) : 2 ≤ wrap v candidate := by
  rw [wrap]
  split <;> omega

theorem allocateLoop_succ (n candidate : Nat) (a : Nat)
    (h : allocateLoop v st (n + 1) candidate = .ok (a, st')) :
    (isFree (st.fat (wrap v candidate)) = true ∧ a = wrap v candidate ∧ Sits v a ∧
      st' = taken v st a) ∨
    (isFree (st.fat (wrap v candidate)) = false ∧
      allocateLoop v st n (wrap v candidate + 1) = .ok (a, st')) := by
  rw [allocateLoop, ← wrap] at h
  obtain ⟨entry, hentry, h⟩ := bind_eq_ok h
  rw [fatAt] at hentry
  split at hentry
  · next hlt =>
    cases hentry
    split at h
    · next hfree =>
      obtain ⟨p, hp, h⟩ := bind_eq_ok h
      split at h
      · next hdata =>
        cases h
        have hsits : Sits v (wrap v candidate) := .mk' (wrap_ge v candidate) hlt hp hdata
        refine .inl ⟨hfree, rfl, hsits, ?_⟩
        rw [taken, place_eq hp]
      · cases h
    · next hused => exact .inr ⟨Bool.eq_false_iff.mpr hused, h⟩
  · cases hentry

theorem allocateNear_cases {n candidate a : Nat}
    (h : allocateLoop v st n candidate = .ok (a, st')) :
    a = 0 ∧ st' = st ∨ isFree (st.fat a) = true ∧ Sits v a ∧ st' = taken v st a ∧
      n ≠ 0 ∧ ∃ x, a = wrap v x := by
  induction n generalizing candidate with
  | zero =>
    cases h
    exact .inl ⟨rfl, rfl⟩
  | succ n ih =>
    rcases allocateLoop_succ n candidate a h with ⟨hfree, rfl, hsits, hst⟩ | ⟨-, hrest⟩
    · exact .inr ⟨hfree, hsits, hst, n.succ_ne_zero, candidate, rfl⟩
    · rcases ih hrest with h0 | ⟨hfree, hsits, hst, -, hx⟩
      · exact .inl h0
      · exact .inr ⟨hfree, hsits, hst, n.succ_ne_zero, hx⟩

theorem wrap_lt (v : Volume) (candidate : Nat) : wrap v candidate < max v.endCluster 3 := by
  rw [wrap]
  split <;> omega

/-- A loop that takes nothing has looked at the clusters from its first one on, and beyond the last
one from 2 on. -/
theorem allocateLoop_zero {n candidate y : Nat}
    (h : allocateLoop v st n candidate = .ok (0, st')) (hge : 2 ≤ y) (hlt : y < max v.endCluster 3)
    (hy : wrap v candidate ≤ y ∧ y < wrap v candidate + n ∨
      y + (max v.endCluster 3 - 2) < wrap v candidate + n) : isFree (st.fat y) = false := by
  induction n generalizing candidate with have hlast := wrap_lt v candidate
  | zero => omega
  | succ n ih =>
    have hfirst := wrap_ge v candidate
    rcases allocateLoop_succ n candidate 0 h with ⟨-, h0, -⟩ | ⟨hused, hrest⟩
    · omega
    · by_cases heq : y = wrap v candidate
      · rwa [heq]
      · refine ih hrest ?_
        rw [wrap]
        split <;> omega

variable {near : Nat}

/-- The disk is full. -/
def Full (v : Volume) (st : St) : Prop := ∀ x, v.endCluster ≠ 0 → isFree (st.fat (wrap v x)) = false

/-- The loop looks at every cluster, wherever it begins. -/
theorem full_of_zero (h : allocateNear v st near = .ok (0, st')) : Full v st := by
  intro x hend
  have := wrap_lt v x
  have := wrap_ge v (near + 1)
  exact allocateLoop_zero h (wrap_ge v x) (wrap_lt v x) (by omega)

theorem Full.allocateNear (hfull : Full v st) {a : Nat}
    (h : allocateNear v st near = .ok (a, st')) : a = 0 := by
  rcases allocateNear_cases h with ⟨h0, -⟩ | ⟨hfree, -, -, hend, x, rfl⟩
  · exact h0
  · rw [hfull x hend] at hfree
    cases hfree

end Allocate

/-! ## Looking for free entries -/

section FindFree

variable {v : Volume} {dev : Buf} {count : Nat}

/-- In a cluster `c` at `p`, behind the cluster `prev`, after `i` of its entries; the clusters
before have `base` entries. -/
structure Looking (dev : Buf) (count p c prev base i : Nat) (s : InsertSt) : Prop where
  prevCluster : s.prevCluster = prev
  dirIndex : s.dirIndex = base + i
  lt : s.consecutiveFree < count
  le : s.consecutiveFree ≤ i
  free : ∀ k, i - s.consecutiveFree ≤ k → k < i → isDirentFree dev (p + 32 * k) = true
  used : s.consecutiveFree < i → isDirentFree dev (p + 32 * (i - s.consecutiveFree - 1)) = false
  run : s.consecutiveFree ≠ 0 → s.resultCluster = c ∧
    s.insPoint = some (p + 32 * (i - s.consecutiveFree)) ∧
      s.insIndex = base + (i - s.consecutiveFree)

/-- The free entries begin with the `a`-th of the cluster. -/
structure Place (dev : Buf) (count p c prev base a : Nat) (s : InsertSt) : Prop where
  resultCluster : s.resultCluster = c
  prevCluster : s.prevCluster = prev
  insPoint : s.insPoint = some (p + 32 * a)
  insIndex : s.insIndex = base + a
  free : ∀ k < count, isDirentFree dev (p + 32 * (a + k)) = true

/-- Before the entries of a cluster, or in the middle of them. -/
def Arrived (dev : Buf) (count p c prev base i : Nat) (s : InsertSt) : Prop :=
  i = 0 ∧ s.lastCluster = prev ∧ s.dirIndex = base ∨
    i ≠ 0 ∧ s.lastCluster = c ∧ Looking dev count p c prev base i s

variable {p c prev base i : Nat} {s : InsertSt}

/-- The state after one more entry. -/
def Next (dev : Buf) (count p c prev base i : Nat) (r : Bool × InsertSt) : Prop :=
  r.1 = true ∧ r.2.lastCluster = c ∧ Looking dev count p c prev base (i + 1) r.2 ∨
    r.1 = false ∧ ∃ a, a + count = i + 1 ∧ Place dev count p c prev base a r.2

/-- The run that the entry belongs to. -/
theorem extendRun_spec {u u' : InsertSt} (h : Looking dev count p c prev base i u)
    (hu' : extendRun { u with lastCluster := c, dirIndex := u.dirIndex + 1 } (p + 32 * i) c = u') :
    u'.lastCluster = c ∧ u'.prevCluster = prev ∧ u'.dirIndex = base + (i + 1) ∧
      u'.consecutiveFree = u.consecutiveFree + 1 ∧ u'.resultCluster = c ∧
      u'.insPoint = some (p + 32 * (i - u.consecutiveFree)) ∧
      u'.insIndex = base + (i - u.consecutiveFree) := by
  obtain ⟨hprev, hindex, -, -, -, -, hstart⟩ := h
  subst hu'
  by_cases h0 : u.consecutiveFree = 0
  · simp only [extendRun, h0]
    exact ⟨rfl, hprev, by simp only [if_pos, hindex]; omega, rfl, rfl, rfl,
      by simp only [if_pos, hindex]; omega⟩
  · obtain ⟨hres, hins, hidx⟩ := hstart h0
    simp only [extendRun]
    rw [if_neg (by omega)]
    exact ⟨rfl, hprev, by simp only [hindex]; omega, rfl, hres, hins, hidx⟩

variable (hcount : 0 < count)
include hcount

section

variable (h : Arrived dev count p c prev base i s)
include h

theorem Arrived.enter : Looking dev count p c prev base i (enterCluster s (i == 0)) := by
  rcases h with ⟨rfl, hlast, hindex⟩ | ⟨hne, -, hlook⟩
  · exact ⟨hlast, hindex, hcount, le_refl 0, by omega, fun h => absurd h (lt_irrefl 0), absurd rfl⟩
  · rwa [enterCluster, beq_false_of_ne hne]

theorem insertCallback_free (hfree : isDirentFree dev (p + 32 * i) = true) :
    Next dev count p c prev base i (insertCallback count dev s (p + 32 * i) c (i == 0)) := by
  have hlook := h.enter hcount
  rw [insertCallback, hfree, if_pos rfl]
  generalize enterCluster s (i == 0) = u at hlook
  generalize hu' : extendRun _ _ _ = u'
  obtain ⟨hlast, hprev, hindex, hlen, hres, hins, hidx⟩ := extendRun_spec hlook hu'
  have hlt := hlook.lt
  have hle := hlook.le
  have hrun : ∀ k, i - u.consecutiveFree ≤ k → k < i + 1 →
      isDirentFree dev (p + 32 * k) = true := by
    intro k hk hk'
    rcases Nat.lt_succ_iff_lt_or_eq.mp hk' with hlt' | rfl
    · exact hlook.free k hk hlt'
    · exact hfree
  have hsub : i + 1 - u'.consecutiveFree = i - u.consecutiveFree := by omega
  by_cases hmore : u'.consecutiveFree < count
  · refine .inl ⟨decide_eq_true hmore, hlast, hprev, hindex, hmore, by simp only; omega, ?_, ?_, ?_⟩
    · simp only [hsub]
      exact hrun
    · simp only [hsub]
      exact fun hfewer => hlook.used (by omega)
    · simp only [hsub]
      exact fun _ => ⟨hres, hins, hidx⟩
  · refine .inr ⟨decide_eq_false hmore, i - u.consecutiveFree, by omega, hres, hprev, hins, hidx, ?_⟩
    intro k hk
    exact hrun _ (by omega) (by omega)

theorem insertCallback_next :
    Next dev count p c prev base i (insertCallback count dev s (p + 32 * i) c (i == 0)) := by
  cases hfree : isDirentFree dev (p + 32 * i) with
  | true => exact insertCallback_free hcount h hfree
  | false =>
    have hlook := h.enter hcount
    rw [insertCallback, hfree, if_neg Bool.false_ne_true]
    exact .inl ⟨rfl, rfl, hlook.prevCluster, congrArg (· + 1) hlook.dirIndex, hcount, zero_le _,
      by simp only; omega, fun _ => hfree, absurd rfl⟩

theorem visitCluster_insert {n : Nat} :
    (∃ t, visitCluster (insertCallback count dev) c n i (p + 32 * i) s = (true, t) ∧
      Arrived dev count p c prev base (i + n) t) ∨
    (∃ t a, visitCluster (insertCallback count dev) c n i (p + 32 * i) s = (false, t) ∧
      a + count ≤ i + n ∧ Place dev count p c prev base a t) := by
  induction n generalizing i s with
  | zero => exact .inl ⟨s, rfl, h⟩
  | succ n ih =>
    have hnext := insertCallback_next hcount h
    rw [visitCluster]
    rcases hstep : insertCallback count dev s (p + 32 * i) c (i == 0) with ⟨go, t⟩
    rw [hstep] at hnext
    rcases hnext with ⟨hgo, hlast, hlook⟩ | ⟨hgo, a, ha, hplace⟩
    · obtain rfl : go = true := hgo
      have harr : Arrived dev count p c prev base (i + 1) t :=
        .inr ⟨succ_ne_zero i, hlast, hlook⟩
      have hrec := ih harr
      rw [show i + 1 + n = i + (n + 1) by omega] at hrec
      exact hrec
    · obtain rfl : go = false := hgo
      exact .inr ⟨t, a, rfl, by omega, hplace⟩

end

variable {st : St} {fuel ext : Nat} {r : Bool × InsertSt × St × Nat}

omit hcount in
theorem taken_free {a : Nat} {k : Nat} (hk : k < perCluster v) :
    isDirentFree (taken v st a).dev (place v a + 32 * k) = true := by
  have hmul := perCluster_mul v
  have hzero : poke st.dev (place v a) (List.replicate v.blockSize 0) (place v a + 32 * k) = 0 := by
    rw [poke_inside (by rw [length_replicate]; omega), getD_replicate 0 (by omega)]
  rw [isDirentFree_iff]
  exact .inl hzero

variable (hlast : s.lastCluster = prev) (hindex : s.dirIndex = base)
include hlast hindex

theorem iterateDir_insert_turn (hc : Sits v c) (heof : isEof c = false)
    (h : iterateDir v (insertCallback count) true (fuel + 1) st c ext s = .ok r) :
    (∃ t a, r = (false, t, st, ext) ∧ a + count ≤ perCluster v ∧
      Place st.dev count (place v c) c prev base a t) ∨
    (∃ t, t.lastCluster = c ∧ Looking st.dev count (place v c) c prev base (perCluster v) t ∧
      if isEof (st.fat c) then ∃ alloc st', allocateNear v st c = .ok (alloc, st') ∧
        iterateDir v (insertCallback count) true fuel st' alloc alloc t = .ok r
      else iterateDir v (insertCallback count) true fuel st (st.fat c) ext t = .ok r) := by
  rw [iterateDir, heof, ok_bind hc.offset, if_pos hc.inData, ← perCluster] at h
  have harr : Arrived st.dev count (place v c) c prev base 0 s := .inl ⟨rfl, hlast, hindex⟩
  have hvisit := visitCluster_insert hcount (n := perCluster v) harr
  rw [mul_zero, add_zero, zero_add] at hvisit
  have hper : perCluster v ≠ 0 := by
    have := perCluster_mul v
    have := blockSize_pos v
    omega
  rcases hvisit with ⟨t, ht, harr'⟩ | ⟨t, a, ht, ha, hplace⟩
  · rw [ht] at h
    rcases harr' with ⟨h0, -⟩ | ⟨-, hlast', hlook⟩
    · exact absurd h0 hper
    refine .inr ⟨t, hlast', hlook, ?_⟩
    rw [fatAt, if_pos hc.lt] at h
    simp only [true_and] at h
    split
    · next heof' =>
      rw [ok_bind rfl, if_pos heof'] at h
      obtain ⟨⟨alloc, st'⟩, halloc, h⟩ := bind_eq_ok h
      exact ⟨alloc, st', halloc, h⟩
    · next heof' => rwa [ok_bind rfl, if_neg heof'] at h
  · rw [ht] at h
    cases h
    exact .inl ⟨t, a, rfl, ha, hplace⟩

/-- The run is in a cluster of the directory, or the directory gets another cluster. -/
theorem iterateDir_insert {l : List Nat} (hwalk : Walk v st.fat (c :: l))
    (hlt : ∀ c' ∈ c :: l, c' < 0x0FFFFFF8)
    (h : iterateDir v (insertCallback count) true fuel st c ext s = .ok r) :
    (∃ l1 c' l2 t a, c :: l = l1 ++ c' :: l2 ∧ r = (false, t, st, ext) ∧
      a + count ≤ perCluster v ∧ Place st.dev count (place v c') c' (l1.getLastD prev)
        (base + l1.length * perCluster v) a t) ∨
    (∃ t fuel' alloc st', t.lastCluster = l.getLastD c ∧
      t.dirIndex = base + (l.length + 1) * perCluster v ∧
      allocateNear v st (l.getLastD c) = .ok (alloc, st') ∧
      iterateDir v (insertCallback count) true fuel' st' alloc alloc t = .ok r) := by
  induction l generalizing c s prev base fuel with
  | nil =>
    obtain ⟨hc, heof⟩ := hwalk
    obtain _ | fuel := fuel
    · cases h
    rcases iterateDir_insert_turn hcount hlast hindex hc
      (isEof_false_of_sits hc (hlt c mem_cons_self)) h with
      ⟨t, a, rfl, ha, hplace⟩ | ⟨t, hlast', hlook, hnext⟩
    · refine .inl ⟨[], c, [], t, a, rfl, rfl, ha, ?_⟩
      rwa [length_nil, zero_mul]
    · rw [if_pos heof] at hnext
      obtain ⟨alloc, st', halloc, hnext⟩ := hnext
      refine .inr ⟨t, fuel, alloc, st', hlast', ?_, halloc, hnext⟩
      rw [hlook.dirIndex, length_nil, zero_add, one_mul]
  | cons d l ih =>
    obtain ⟨hc, hd, hrest⟩ := hwalk
    have hlt' : ∀ c' ∈ d :: l, c' < 0x0FFFFFF8 := fun c' hc' => hlt c' (mem_cons_of_mem c hc')
    obtain _ | fuel := fuel
    · cases h
    rcases iterateDir_insert_turn hcount hlast hindex hc
      (isEof_false_of_sits hc (hlt c mem_cons_self)) h with
      ⟨t, a, rfl, ha, hplace⟩ | ⟨t, hlast', hlook, hnext⟩
    · refine .inl ⟨[], c, d :: l, t, a, rfl, rfl, ha, ?_⟩
      rwa [length_nil, zero_mul]
    rw [hd, isEof_false_of_sits (hrest.lt d mem_cons_self) (hlt' d mem_cons_self)] at hnext
    rcases ih hlast' hlook.dirIndex hrest hlt' hnext with
      ⟨l1, c', l2, t', a, heq, hr, ha, hplace⟩ | ⟨t', fuel', alloc, st', h1, h2, h3, h4⟩
    · refine .inl ⟨c :: l1, c', l2, t', a, by rw [heq, cons_append], hr, ha, ?_⟩
      rwa [getLastD_cons, length_cons, succ_mul, add_comm (l1.length * _), ← add_assoc]
    · rw [getLastD_cons]
      refine .inr ⟨t', fuel', alloc, st', h1, ?_, h3, h4⟩
      rw [h2, length_cons, succ_mul (l.length + 1), add_comm ((l.length + 1) * _), add_assoc]

/-- In a new cluster the entries fit, or no cluster is large enough and the disk gets full. -/
theorem iterateDir_insert_new {alloc near : Nat} {st' : St}
    (hends : Low v ∨ v.fatEntries ≤ 0x0FFFFFF7)
    (halloc : allocateNear v st near = .ok (alloc, st'))
    (h : iterateDir v (insertCallback count) true fuel st' alloc alloc s = .ok r) :
    (r.2.2.2 = 0 ∧ Full v r.2.2.1) ∨
    (isFree (st.fat alloc) = true ∧ Sits v alloc ∧ st' = taken v st alloc ∧
      ∃ t a, r = (false, t, st', alloc) ∧ a + count ≤ perCluster v ∧
        Place st'.dev count (place v alloc) alloc prev base a t) := by
  induction fuel generalizing st st' alloc near s prev base with
  | zero => cases h
  | succ fuel ih =>
    rcases allocateNear_cases halloc with ⟨rfl, rfl⟩ | ⟨hfree, hsits, rfl, -⟩
    · cases h
      exact .inl ⟨rfl, full_of_zero halloc⟩
    have hlt : alloc < 0x0FFFFFF8 := lt_succ_of_lt (hsits.isCluster hends).2
    rcases iterateDir_insert_turn hcount hlast hindex hsits (isEof_false_of_sits hsits hlt) h with
      ⟨t, a, rfl, ha, hplace⟩ | ⟨t, hlast', hlook, hnext⟩
    · exact .inr ⟨hfree, hsits, rfl, t, a, rfl, ha, hplace⟩
    -- all entries are free, so the run is as long as the cluster
    have hlong : ¬ t.consecutiveFree < perCluster v := by
      intro hlt
      have hused := hlook.used hlt
      rw [taken_free (by omega)] at hused
      cases hused
    have hcut : ¬ count ≤ perCluster v := by
      have := hlook.lt
      omega
    have hmark : isEof ((taken v st alloc).fat alloc) = true := by
      rw [show (taken v st alloc).fat alloc = 1 from if_pos rfl]
      rfl
    rw [if_pos hmark] at hnext
    obtain ⟨alloc', st'', halloc', hnext⟩ := hnext
    rcases ih hlast' hlook.dirIndex halloc' hnext with hfull | ⟨-, -, -, t', a, -, ha, -⟩
    · exact .inl hfull
    · omega

end FindFree

/-! ## The new entries -/

section Stored

variable {lfn : FullLfn} {now : Stamp} {writable : Bool} {idx : Nat}

/-- The entries that are written. -/
def newEntries (lfn : FullLfn) (now : Stamp) (writable : Bool) (idx : Nat) : FullLfn :=
  generateUniqueShortname
    { lfn with fragments := stampNew lfn.fragments (32 * lfn.lfnEntryCount) now writable } idx

@[simp] theorem length_uniqueShortname (idx : Nat) : (uniqueShortname idx).length = 11 := rfl

variable {a : Nat}

theorem stampNew_before (m : Buf) {sfn : Nat} (h : a < sfn + 11) :
    stampNew m sfn now writable a = m a := by
  simp only [stampNew]
  rw [poke_outside (by omega), poke_outside (by omega), poke_outside (by omega),
    poke_outside (by omega), poke_outside (by omega), poke_outside (by omega),
    poke_outside (by omega)]

/-- The fragments in front of the short entry are those of the name, but for the checksum. -/
theorem newEntries_long (ha : a < 32 * lfn.lfnEntryCount) (h13 : a % 32 ≠ 13) :
    (newEntries lfn now writable idx).fragments a = lfn.fragments a := by
  simp only [newEntries, generateUniqueShortname, putChecksums]
  rw [putEach_other _ _ (by omega), poke_outside (by omega), stampNew_before _ (by omega)]

/-- Behind the fragments nothing is a checksum. -/
theorem newEntries_short (ha : 32 * lfn.lfnEntryCount ≤ a) :
    (newEntries lfn now writable idx).fragments a =
      poke (stampNew lfn.fragments (32 * lfn.lfnEntryCount) now writable) (32 * lfn.lfnEntryCount)
        (uniqueShortname idx) a := by
  simp only [newEntries, generateUniqueShortname, putChecksums]
  rw [putEach_other _ _ (by omega)]

theorem lfnChecksum_congr {m m' : Buf} {p q : Nat} (h : ∀ i < 11, m (p + i) = m' (q + i)) :
    lfnChecksum m p = lfnChecksum m' q := by
  rw [lfnChecksum, lfnChecksum, peek_eq_peek_iff.mpr h]

theorem newEntries_checksum {i : Nat} (hi : i < lfn.lfnEntryCount) :
    (newEntries lfn now writable idx).fragments (32 * i + 13) =
      lfnChecksum (newEntries lfn now writable idx).fragments (32 * lfn.lfnEntryCount) := by
  have hat : (newEntries lfn now writable idx).fragments (32 * i + 13) = lfnChecksum
      (poke (stampNew lfn.fragments (32 * lfn.lfnEntryCount) now writable)
        (32 * lfn.lfnEntryCount) (uniqueShortname idx)) (32 * lfn.lfnEntryCount) :=
    putEach_at 13 _ hi _
  rw [hat]
  apply lfnChecksum_congr
  intro j _
  rw [newEntries_short (by omega)]

theorem newEntries_stored (hlfn : ∀ i < lfn.lfnEntryCount, lfn.fragments (32 * i + 11) = 0x0F)
    {dev : Buf} {ins : Nat} (h : ∀ a < 32 * (lfn.lfnEntryCount + 1),
      dev (ins + a) = (newEntries lfn now writable idx).fragments a) : Stored lfn dev ins where
  same i hi := by
    have hbyte : ∀ o < 32, o ≠ 13 → lfn.fragments (32 * i + o) = dev (ins + 32 * i + o) := by
      intro o ho h13
      rw [add_assoc, h _ (by omega), newEntries_long (by omega) (by omega)]
    simp only [sameFragment, decide_eq_true_eq, peek_eq_peek_iff, add_assoc]
    simp only [add_assoc] at hbyte
    exact ⟨hbyte 0 (by omega) (by omega), fun j hj => hbyte (1 + j) (by omega) (by omega),
      fun j hj => hbyte (14 + j) (by omega) (by omega),
      fun j hj => hbyte (28 + j) (by omega) (by omega)⟩
  attr i hi := by
    rw [add_assoc, h _ (by omega), newEntries_long (by omega) (by omega), hlfn i hi]
  checksum i hi := by
    rw [add_assoc, h _ (by omega), newEntries_checksum hi]
    apply lfnChecksum_congr
    intro j hj
    rw [add_assoc, h _ (by omega)]
  short_attr := by
    rw [add_assoc, h _ (by omega), newEntries_short (by omega),
      poke_outside (by rw [length_uniqueShortname]; omega)]
    rw [show stampNew _ _ now writable _ = if writable then 0x20 else 0x20 ||| 0x01 from
      poke_inside (i := 0) one_pos]
    cases writable <;> decide

variable (lfn now writable idx) in
/-- The new short name does not begin like a free entry. -/
theorem newEntries_used :
    Printable ((newEntries lfn now writable idx).fragments (32 * lfn.lfnEntryCount)) := by
  have henc : ∀ k < 32, Printable (enc.getD k 0) := by decide
  have hfirst : poke (stampNew lfn.fragments (32 * lfn.lfnEntryCount) now writable)
      (32 * lfn.lfnEntryCount) (uniqueShortname idx) (32 * lfn.lfnEntryCount) =
        (uniqueShortname idx).getD 0 0 :=
    poke_inside (i := 0) (by rw [length_uniqueShortname]; omega)
  rw [newEntries_short le_rfl, hfirst]
  apply henc
  rw [show (31 : Nat) = 2 ^ 5 - 1 from rfl, and_two_pow_sub_one_eq_mod]
  exact mod_lt _ (by decide)

end Stored

/-! ## The directory afterwards -/

section Create

variable {v : Volume} {st st' : St} {chain : List Nat}

theorem not_free_of_linked (h : Fat.Linked st.fat chain) : ∀ c ∈ chain, isFree (st.fat c) = false := by
  induction chain with
  | nil => exact absurd h id
  | cons c l ih =>
    have hfree : ∀ entry, 2 ≤ Fat.link entry → isFree entry = false := by
      intro entry hge
      rw [Fat.link] at hge
      rw [isFree, decide_eq_false_iff_not, show (0x0FFFFFFF : Nat) = 2 ^ 28 - 1 from rfl,
        and_two_pow_sub_one_eq_mod]
      omega
    cases l with
    | nil => exact forall_mem_singleton.2 (hfree _ (le_trans (by decide) h.2))
    | cons d l =>
      refine forall_mem_cons.2 ⟨hfree _ ?_, ih h.2.2⟩
      rw [h.2.1]
      exact (h.2.2.isCluster d mem_cons_self).1

variable {c : Nat}

/-- `relink`, where the cluster before is in the FAT. -/
theorem relink_spec {prev : Nat} (h : relink v st prev c = .ok st') :
    st'.dev = st.dev ∧ (∀ x ≠ prev, st'.fat x = st.fat x) ∧
      (prev = 0 → st'.fat = st.fat ∧ st'.dirent.start = c) ∧
      (prev ≠ 0 → st'.fat prev = c ∧ st'.dirent.start = st.dirent.start) := by
  rw [relink] at h
  split at h
  · next h0 =>
    cases h
    exact ⟨rfl, fun _ _ => rfl, fun _ => ⟨rfl, rfl⟩, absurd h0⟩
  · next hne =>
    rw [putFat] at h
    split at h
    · cases h
      exact ⟨rfl, fun x hx => if_neg hx, fun h0 => absurd h0 hne, fun _ => ⟨if_pos rfl, rfl⟩⟩
    · cases h

theorem putFat_spec {entry : Nat} (h : putFat v st c entry = .ok st') :
    st'.dev = st.dev ∧ (∀ x ≠ c, st'.fat x = st.fat x) ∧ st'.fat c = entry ∧
      st'.dirent = st.dirent := by
  rw [putFat] at h
  split at h
  · cases h
    exact ⟨rfl, fun x hx => if_neg hx, if_pos rfl, rfl⟩
  · cases h

theorem copyFragments_spec {lfn : FullLfn} {insPoint : Option Nat} {count : Nat}
    (h : copyFragments v st lfn insPoint count = .ok st') :
    ∃ ins, insPoint = some ins ∧ st'.fat = st.fat ∧ st'.dirent = st.dirent ∧
      st'.dev = poke st.dev ins (peek lfn.fragments 0 (32 * count)) := by
  cases insPoint with
  | none => cases h
  | some ins =>
    rw [copyFragments] at h
    split at h
    · cases h
      exact ⟨ins, rfl, rfl, rfl, rfl⟩
    · cases h

/-- The copy of a cluster is in one that was free. -/
theorem transactCluster_spec {prev b : Nat} (h : transactCluster v st prev c = .ok (b, st'))
    (hb : b ≠ 0) : isFree (st.fat b) = true ∧ Sits v b ∧
      (∀ a, a < place v b ∨ place v b + v.blockSize ≤ a → st'.dev a = st.dev a) ∧
      (∀ x ≠ b, x ≠ prev → st'.fat x = st.fat x) ∧
      (prev = 0 → ∀ x ≠ b, st'.fat x = st.fat x) ∧
      (prev ≠ 0 → st'.dirent.start = st.dirent.start) := by
  obtain ⟨⟨b', st1⟩, halloc, h⟩ := bind_eq_ok h
  simp only at h
  split at h
  · next h0 =>
    cases h
    exact absurd rfl hb
  next hb' =>
  rcases allocateNear_cases halloc with ⟨h0, -⟩ | ⟨hfree, hsits, rfl, -⟩
  · exact absurd h0 hb'
  rw [ok_bind hsits.offset] at h
  obtain ⟨source, -, h⟩ := bind_eq_ok h
  split at h
  · obtain ⟨entry, -, h⟩ := bind_eq_ok h
    obtain ⟨st2, hput, h⟩ := bind_eq_ok h
    obtain ⟨st3, hlink, h⟩ := bind_eq_ok h
    cases h
    obtain ⟨hdev, hfat, -, hdirent⟩ := putFat_spec hput
    obtain ⟨hdev', hfat', hzero, hprev⟩ := relink_spec hlink
    have htaken : ∀ x ≠ b, (taken v st b).fat x = st.fat x := fun x hx => if_neg hx
    refine ⟨hfree, hsits, fun a ha => ?_, fun x hx hx' => ?_, fun h0 x hx => ?_, fun hne => ?_⟩
    · rw [hdev', hdev]
      exact (poke_outside (by rw [peek_length]; exact ha)).trans
        (poke_outside (by rw [length_replicate]; exact ha))
    · rw [hfat' x hx', hfat x hx]
      exact htaken x hx
    · rw [(hzero h0).1, hfat x hx]
      exact htaken x hx
    · rw [(hprev hne).2, hdirent]
      rfl
  · cases h

end Create

/-! ## Well-formed directories -/

section WellFormed

variable {dev dev' : Buf} {l l' : List Nat} {de : Nat}

theorem LiveLong.not_free (h : LiveLong dev de) : isDirentFree dev de ≠ true := by
  rw [h.2]
  exact Bool.false_ne_true

theorem isDirentFree_congr (h : ∀ j < 32, dev (de + j) = dev' (de + j)) :
    isDirentFree dev de = isDirentFree dev' de := by
  have h0 : dev de = dev' de := h 0 (by omega)
  rw [isDirentFree, isDirentFree, h0]

theorem liveLong_congr (h : ∀ j < 32, dev (de + j) = dev' (de + j)) :
    LiveLong dev de ↔ LiveLong dev' de := by
  rw [LiveLong, LiveLong, isDirentFree_congr h, h 11 (by omega)]

theorem WellFormed.congr (h : WellFormed dev l)
    (hsame : ∀ de ∈ l, ∀ j < 32, dev (de + j) = dev' (de + j)) : WellFormed dev' l where
  next := by
    apply List.IsChain.imp_of_mem_imp _ h.next
    intro x y hx hy hxy hlong
    rw [← isDirentFree_congr (hsame y hy)]
    exact hxy ((liveLong_congr (hsame x hx)).mpr hlong)
  settled de hde hlong :=
    h.settled de hde ((liveLong_congr (hsame de (mem_of_getLast? hde))).mpr hlong)

theorem isChain_of_left {R : Nat → Nat → Prop} (h : ∀ x ∈ l, ∀ y, R x y) : l.IsChain R :=
  (pairwise_of_forall_mem_list fun x hx y _ => h x hx y).isChain

theorem WellFormed.append_free (h : WellFormed dev l)
    (hfree : ∀ de ∈ l', isDirentFree dev de = true) : WellFormed dev (l ++ l') where
  next := by
    refine isChain_append.mpr ⟨h.next, isChain_of_left ?_, ?_⟩
    · intro x hx y hlong
      exact absurd (hfree x hx) hlong.not_free
    · intro x hx y _ hlong
      exact absurd hlong (h.settled x hx)
  settled de hde hlong := by
    rw [getLast?_append] at hde
    cases hlast : l'.getLast? with
    | none =>
      rw [hlast] at hde
      exact h.settled de hde hlong
    | some x =>
      rw [hlast] at hde
      obtain rfl : x = de := Option.some.inj hde
      exact hlong.not_free (hfree x (mem_of_getLast? hlast))

end WellFormed

end Dgos.L3.Fat32
