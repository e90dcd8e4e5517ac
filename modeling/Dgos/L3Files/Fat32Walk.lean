import Dgos.Core.Chain
import Dgos.L3Files.Fat32Rw
import Dgos.L3Files.Fat32Scan

/-!
# The clusters of a directory

`iterate_dir` follows the FAT entries as they are, with their reserved bits. Where it gets through
to the end of a directory, the entries it has seen are those of the clusters of the chain one
behind the other.

Results:
* `lookup_walk`: a search of such a directory is a search in the list of its entries.
* `walk_of_missing`: a search that finds nothing has got through.
-/
namespace Dgos.L3.Fat32

open List Int Nat Fat

/-! ## Where a cluster is -/

/-- Where the code looks for a cluster. -/
def place (v : Volume) (cluster : Nat) : Nat := ((offsetofCluster v cluster).toOption).getD 0

/-- The code can access the cluster. -/
structure Sits (v : Volume) (c : Nat) : Prop where
  ge : 2 ≤ c
  lt : c < v.fatEntries
  offset : offsetofCluster v c = .ok (place v c)
  inData : v.inData (place v c) v.blockSize = true

section Place

variable {v : Volume} {c c' p : Nat}

theorem place_eq (h : offsetofCluster v c = .ok p) : place v c = p := by
  rw [place, h]
  rfl

theorem Sits.mk' (ge : 2 ≤ c) (lt : c < v.fatEntries) (h : offsetofCluster v c = .ok p)
    (hdata : v.inData p v.blockSize = true) : Sits v c := by
  obtain rfl := place_eq h
  exact ⟨ge, lt, h, hdata⟩

/-- The offset is right, or too low by 4 GiB. -/
theorem Sits.place_int (h : Sits v c) : (place v c : Int) = clusterPos v c - shortfall v := by
  have hlt : c < 2 ^ 28 := lt_of_lt_of_le h.lt fatEntries_le
  obtain ⟨p, hp, k, hk⟩ := offsetofCluster_eq v h.ge (by omega) (mod_eq_of_lt hlt)
  obtain rfl := place_eq hp
  have hres : reserved c = 0 := (reserved_eq_zero_iff (by omega)).mpr (mod_eq_of_lt hlt).symm
  rw [hres, zero_mul, mul_zero] at hk
  have hdata := (inData_iff.mp h.inData).2
  have hend := dataEnd_lt (v := v)
  have hpos : clusterPos v c < 2 ^ 48 := by
    have hmul : (c - 2) * v.blockSize ≤ 2 ^ 28 * 2 ^ 19 := Nat.mul_le_mul (by omega) (blockSize_le v)
    have := dataStart_lt v
    rw [clusterPos]
    omega
  have hshort : shortfall v = 0 ∨ shortfall v = 2 ^ 32 := by
    rw [shortfall]
    split
    · exact .inl rfl
    · exact .inr rfl
  omega

/-- Only clusters of the volume are in the data area. -/
theorem Sits.isCluster (h : Sits v c) (hends : Low v ∨ v.fatEntries ≤ 0x0FFFFFF7) :
    IsCluster c := by
  rcases hends with hlow | hends
  swap
  · exact ⟨h.ge, lt_of_lt_of_le h.lt hends⟩
  have hp := h.place_int
  rw [shortfall, if_pos hlow] at hp
  have hdata := (inData_iff.mp h.inData).2
  have hclusters := v.clusters_le
  refine ⟨h.ge, ?_⟩
  by_contra hge
  have hmul : v.clusters * v.blockSize ≤ (c - 2) * v.blockSize := mul_le_mul_right _ (by omega)
  rw [clusterPos] at hp
  have := blockSize_pos v
  omega

theorem clusterPos_le (hlt : c < c') (hc : 2 ≤ c) :
    clusterPos v c + v.blockSize ≤ clusterPos v c' := by
  have hmul : (c - 2 + 1) * v.blockSize ≤ (c' - 2) * v.blockSize := mul_le_mul_right _ (by omega)
  rw [add_mul] at hmul
  rw [clusterPos, clusterPos]
  omega

theorem Sits.apart (h : Sits v c) (h' : Sits v c') (hne : c ≠ c') :
    place v c + v.blockSize ≤ place v c' ∨ place v c' + v.blockSize ≤ place v c := by
  have hp := h.place_int
  have hp' := h'.place_int
  rcases lt_or_gt_of_ne hne with hlt | hlt
  · have := clusterPos_le (v := v) hlt h.ge
    omega
  · have := clusterPos_le (v := v) hlt h'.ge
    omega

end Place

/-! ## The entries -/

/-- The number of entries in a cluster. -/
def perCluster (v : Volume) : Nat := v.blockSize >>> 5

theorem perCluster_mul (v : Volume) : 32 * perCluster v = v.blockSize := by
  have hshift := v.sector_ge
  rw [perCluster, Nat.shiftRight_eq_div_pow]
  apply Nat.mul_div_cancel'
  rw [blockSize_eq_pow]
  exact Nat.pow_dvd_pow 2 (show 5 ≤ v.sectorShift + v.blockShift by omega)

/-- The entries of a chain of clusters. -/
def entriesOf (v : Volume) (chain : List Nat) : List Nat :=
  chain.flatMap fun c => slots (place v c) (perCluster v)

theorem entriesOf_cons (v : Volume) (c : Nat) (l : List Nat) :
    entriesOf v (c :: l) = slots (place v c) (perCluster v) ++ entriesOf v l := rfl

theorem entriesOf_append (v : Volume) (l l' : List Nat) :
    entriesOf v (l ++ l') = entriesOf v l ++ entriesOf v l' := flatMap_append

/-- The entries of the FAT lead from cluster to cluster, without reserved bits, up to an end
mark. -/
def Walk (v : Volume) (fat : Nat → Nat) : List Nat → Prop
  | [] => False
  | [c] => Sits v c ∧ isEof (fat c) = true
  | c :: d :: l => Sits v c ∧ fat c = d ∧ Walk v fat (d :: l)

section Iterate

variable {v : Volume} {σ : Type} {f : Buf → σ → Nat → Bool × σ}

theorem isEof_false_of_sits {c : Nat} (h : Sits v c) (hlt : c < 0x0FFFFFF8) : isEof c = false := by
  have := h.ge
  rw [isEof_eq, decide_eq_false_iff_not, link]
  omega

theorem slots_cons (p n : Nat) : slots p (n + 1) = p :: slots (p + 32) n := by
  rw [add_comm, slots_add]
  rfl

theorem visitCluster_eq (g : σ → Nat → Bool × σ) (cluster n i de : Nat) (s : σ) :
    visitCluster (fun s de _ _ => g s de) cluster n i de s = visit g (slots de n) s := by
  induction n generalizing i de s with
  | zero => rfl
  | succ n ih =>
    rw [visitCluster, slots_cons, visit]
    rcases g s de with ⟨go, t⟩
    cases go with
    | true => exact ih (i + 1) (de + 32) t
    | false => rfl

/-- One turn: the entries of the cluster, and then the next one. -/
theorem iterateDir_turn (f : Buf → σ → Nat → Bool × σ) {st : St} {c fuel ext : Nat} {s : σ}
    (hc : Sits v c) (heof : isEof c = false) :
    iterateDir v (fun dev s de _ _ => f dev s de) false (fuel + 1) st c ext s =
      match visit (f st.dev) (slots (place v c) (perCluster v)) s with
      | (false, t) => .ok (false, t, st, ext)
      | (true, t) => iterateDir v (fun dev s de _ _ => f dev s de) false fuel st (st.fat c) ext t := by
  rw [iterateDir, heof, ok_bind hc.offset, if_pos hc.inData, visitCluster_eq, ← perCluster]
  rcases visit (f st.dev) (slots (place v c) (perCluster v)) s with ⟨go, t⟩
  cases go with
  | false => rfl
  | true =>
    rw [fatAt, if_pos hc.lt]
    rfl

/-- Getting to the end of the walk, or to an entry where the callback stops. -/
theorem iterateDir_walk (f : Buf → σ → Nat → Bool × σ) {st : St} {c : Nat} {l : List Nat}
    (h : Walk v st.fat (c :: l)) (hlt : ∀ c' ∈ c :: l, c' < 0x0FFFFFF8) {fuel ext : Nat} (s : σ)
    (hfuel : l.length + 2 ≤ fuel) :
    iterateDir v (fun dev s de _ _ => f dev s de) false fuel st c ext s =
      .ok ((visit (f st.dev) (entriesOf v (c :: l)) s).1,
        (visit (f st.dev) (entriesOf v (c :: l)) s).2, st, ext) := by
  obtain ⟨fuel, rfl⟩ : ∃ k, fuel = k + 2 := ⟨fuel - 2, by omega⟩
  induction l generalizing c s fuel with
  | nil =>
    obtain ⟨hc, heof⟩ := h
    rw [iterateDir_turn f hc (isEof_false_of_sits hc (hlt c mem_cons_self)), entriesOf_cons,
      entriesOf, flatMap_nil, append_nil]
    rcases visit (f st.dev) (slots (place v c) (perCluster v)) s with ⟨go, t⟩
    cases go with
    | false => rfl
    | true => exact if_pos heof
  | cons d l ih =>
    obtain ⟨hc, hd, hrest⟩ := h
    rw [iterateDir_turn f hc (isEof_false_of_sits hc (hlt c mem_cons_self)), entriesOf_cons]
    rcases hvisit : visit (f st.dev) (slots (place v c) (perCluster v)) s with ⟨go, t⟩
    cases go with
    | false => rw [visit_append_false hvisit]
    | true =>
      rw [length_cons] at hfuel
      obtain _ | fuel := fuel
      · omega
      rw [hd, visit_append_true hvisit]
      exact ih hrest (fun c' hc' => hlt c' (mem_cons_of_mem c hc')) t fuel (by omega)

end Iterate

/-! ## Searching -/

section Search

variable {v : Volume} {st : St} {lfn : FullLfn} {c entry : Nat} {l : List Nat}
  {r : Bool × SearchSt × St × Nat} {s : SearchSt}

/-- The part of `search_dir` behind the conversion of the name. -/
def searchEntries (v : Volume) (st : St) (cluster : Nat) (lfn : FullLfn) :
    Except Err (Option Nat) := do
  let (_, s, _, _) ← iterateDir v (fun dev s de _ _ => searchCallback lfn dev s de) false (turns v)
    st cluster 0 ⟨0, 0, none⟩
  return s.result

theorem searchDir_eq (v : Volume) (st : St) (cluster : Nat) (a : NameArg) :
    searchDir v st cluster a.text a.pos a.name.bytes.length =
      searchEntries v st cluster a.name.lfn := by
  rw [searchDir, ok_bind (direntsFromName_eq a)]
  rfl

theorem searchEntries_walk (h : Walk v st.fat (c :: l)) (hlt : ∀ c' ∈ c :: l, c' < 0x0FFFFFF8)
    (hlen : l.length + 2 ≤ turns v) (lfn : FullLfn) :
    searchEntries v st c lfn = .ok (found lfn st.dev (entriesOf v (c :: l))) := by
  rw [searchEntries, ok_bind (iterateDir_walk (searchCallback lfn) h hlt _ hlen)]
  rfl

/-- A search that finds nothing has gone through a cluster and on to the next. -/
theorem iterateDir_missing {fuel c ext : Nat}
    (h : iterateDir v (fun dev s de _ _ => searchCallback lfn dev s de) false (fuel + 1) st c ext s =
      .ok r) (hmissing : r.2.1.result = none) (heof : isEof c = false) (hge : 2 ≤ c) :
    Sits v c ∧ ∃ t,
      iterateDir v (fun dev s de _ _ => searchCallback lfn dev s de) false fuel st (st.fat c) ext t =
        .ok r := by
  rw [iterateDir, heof] at h
  obtain ⟨p, hp, h⟩ := bind_eq_ok h
  split at h
  · next hdata =>
    rw [visitCluster_eq] at h
    rcases visit_result lfn st.dev (slots p (v.blockSize >>> 5)) s with
      ⟨t, ht, de, -, hres⟩ | ⟨t, ht, -⟩
    · rw [ht] at h
      cases h
      rw [hres] at hmissing
      cases hmissing
    · rw [ht] at h
      obtain ⟨entry, hentry, h⟩ := bind_eq_ok h
      rw [fatAt] at hentry
      split at hentry
      · next hlt =>
        cases hentry
        exact ⟨.mk' hge hlt hp hdata, t, h⟩
      · cases hentry
  · cases h

theorem isEof_of_ge (h : 0x0FFFFFF8 ≤ link entry) : isEof entry = true := by
  rw [isEof_eq, decide_eq_true_iff]
  exact .inr h

/-- An entry with reserved bits is not in the FAT, so the search stops there. -/
theorem walk_of_iterateDir (hl : Linked st.fat (c :: l)) {fuel ext : Nat}
    (hmissing : r.2.1.result = none)
    (h : iterateDir v (fun dev s de _ _ => searchCallback lfn dev s de) false fuel st c ext s =
      .ok r) : Walk v st.fat (c :: l) := by
  induction l generalizing c s fuel with
  | nil =>
    obtain ⟨hc, hend⟩ := hl
    obtain _ | fuel := fuel
    · cases h
    have heof : isEof c = false := isEof_of_isCluster (by rwa [link, mod_eq_of_lt (by
      have := hc.2
      omega)])
    exact ⟨(iterateDir_missing h hmissing heof hc.1).1, isEof_of_ge hend⟩
  | cons d l ih =>
    obtain ⟨hc, hd, hrest⟩ := hl
    obtain _ | fuel := fuel
    · cases h
    have heof : isEof c = false := isEof_of_isCluster (by rwa [link, mod_eq_of_lt (by
      have := hc.2
      omega)])
    obtain ⟨hsits, t, hnext⟩ := iterateDir_missing h hmissing heof hc.1
    have hdc : IsCluster d := hrest.isCluster d mem_cons_self
    have hentry : st.fat c = d := by
      obtain _ | fuel := fuel
      · cases hnext
      have hnext' := iterateDir_missing hnext hmissing (isEof_of_isCluster (by rwa [hd])) (by
        have := hdc.1
        rw [← hd, link] at this
        omega)
      have hlt := lt_of_lt_of_le hnext'.1.lt fatEntries_le
      rwa [link, mod_eq_of_lt hlt] at hd
    rw [hentry] at hnext
    exact ⟨hsits, hentry, ih hrest hnext⟩

end Search

/-! ## Directories -/

/-- Behind a long entry in use comes an entry in use. -/
structure WellFormed (dev : Buf) (entries : List Nat) : Prop where
  next : entries.IsChain fun de next => LiveLong dev de → isDirentFree dev next = false
  settled : Settled dev entries

/-- A directory of the volume: its clusters, and what is in them. -/
structure Directory (v : Volume) (st : St) where
  chain : List Nat
  linked : Fat.Linked st.fat chain
  start_eq : st.dirent.start = chain.headD 0
  wellFormed : WellFormed st.dev (entriesOf v chain)
  /-- The code allocates no cluster with the number of an end mark. -/
  ends : Low v ∨ v.fatEntries ≤ 0x0FFFFFF7

section Directory

variable {v : Volume} {st : St} (d : Directory v st)

/-- What a search for the name gives. -/
def lookup (v : Volume) (st : St) (a : NameArg) : Except Err (Option Nat) :=
  searchDir v st st.dirent.start a.text a.pos a.name.bytes.length

theorem walk_of_missing {a : NameArg} (h : lookup v st a = .ok none) : Walk v st.fat d.chain := by
  have hl := d.linked
  have hstart := d.start_eq
  rw [lookup, searchDir_eq] at h
  generalize d.chain = chain at hl hstart
  cases chain with
  | nil => exact absurd hl id
  | cons c l =>
    rw [hstart] at h
    obtain ⟨r, hr, hres⟩ := bind_eq_ok h
    exact walk_of_iterateDir hl (Except.ok.inj hres) hr

theorem Walk.lt {fat : Nat → Nat} {l : List Nat} (h : Walk v fat l) : ∀ c ∈ l, Sits v c := by
  induction l with
  | nil => exact absurd h id
  | cons c l ih =>
    cases l with
    | nil => exact forall_mem_singleton.2 h.1
    | cons e l => exact forall_mem_cons.2 ⟨h.1, ih h.2.2⟩

theorem lookup_walk {chain : List Nat} (h : Walk v st.fat chain) (hnodup : chain.Nodup)
    (hlt : ∀ c ∈ chain, c < 0x0FFFFFF8) (hstart : st.dirent.start = chain.headD 0) (a : NameArg) :
    lookup v st a = .ok (found a.name.lfn st.dev (entriesOf v chain)) := by
  cases chain with
  | nil => exact absurd h id
  | cons c l =>
    have hlen := length_le_of_nodup_lt hnodup fun c' hc' => (h.lt c' hc').lt
    rw [lookup, searchDir_eq, hstart]
    apply searchEntries_walk h hlt
    rw [length_cons] at hlen
    rw [turns]
    omega

end Directory

end Dgos.L3.Fat32
