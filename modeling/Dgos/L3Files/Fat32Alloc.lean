import Dgos.L3Files.Fat32Create

/-!
# The clusters that are handed out (kernel/fs/fat32/fat32.cc)

`mount` takes the end of the partition as a sector of the drive, but the sector of cluster 0 as one
of the partition, so `end_cluster` is too large by the sectors before the partition.
`extend_fat_chain` only takes clusters: it writes neither links nor an end mark, and a cluster
that it did not get is in its list as 0.

Results:
* `clusters_inside_iff`: when all clusters below `end_cluster` are inside of the partition.
* `extend_right_iff`: `extend_fat_chain` never extends a chain, and when its list has a 0.
-/
namespace Dgos.L3.Fat32

open Nat Finset Volume

/-! ## The range of `allocate_near` -/

/-- The sectors of the drive and the bytes of the partition are numbers of type `int64_t`. -/
structure Partition extends Volume where
  end_lt : partSt + partLen < 2 ^ 63
  bytes_lt : partLen * toVolume.sectorSize < 2 ^ 63

/-- The clusters that `allocate_near` may hand out are inside of the partition. -/
def ClustersInside (v : Volume) : Prop := ∀ c, 2 ≤ c → c < v.endCluster →
  ∃ p, offsetofCluster v c = .ok p ∧ p + v.blockSize ≤ v.partLen * v.sectorSize

/-- The sectors from cluster 0 of the partition to the end of the partition on the drive. -/
def Volume.span (v : Volume) : Nat :=
  v.partSt + v.partLen + 2 * 2 ^ v.blockShift - (v.reservedSectors + 2 * v.secPerFat)

theorem offsetofCluster_small (v : Volume) {c : Nat} (hc : 2 ≤ c) (hlt : c < 2 ^ 31) :
    ∃ p, offsetofCluster v c = .ok p ∧
      if Low v then p = clusterPos v c else c = 2 → 2 ^ 63 ≤ p + v.blockSize := by
  have hse : Fat.signExtend c = c := if_pos hlt
  obtain ⟨k, hk⟩ := signExtend_clusterOfs v
  have hle := blockSize_le v
  have hD := dataStart_lt v
  have hmul : (c - 2) * v.blockSize ≤ 2 ^ 31 * 2 ^ 19 := Nat.mul_le_mul (by omega) hle
  have hsplit : c * v.blockSize = (c - 2) * v.blockSize + 2 * v.blockSize := by
    rw [← Nat.add_mul, Nat.sub_add_cancel hc]
  rw [offsetofCluster, hse, if_pos hc, shiftLeft_eq c, ← blockSize_eq_pow, clusterPos]
  refine ⟨_, rfl, ?_⟩
  split
  · next hlow =>
    rw [shortfall, if_pos hlow] at hk
    omega
  · next hlow =>
    rw [shortfall, if_neg hlow] at hk
    rintro rfl
    omega

theorem endClusterBits_eq (v : Partition) :
    v.endClusterBits = v.span / 2 ^ v.blockShift % 2 ^ 32 := by
  have hblock : 2 ^ v.blockShift ≤ 2 ^ 7 := Nat.pow_le_pow_right (by decide) v.block_le
  have hsec : 2 ^ 9 ≤ 2 ^ v.sectorShift := Nat.pow_le_pow_right (by decide) v.sector_ge
  have hfat : v.secPerFat * 2 ^ 9 ≤ 2 ^ 30 := (mul_le_mul_left _ hsec).trans v.fat_le
  have hres := v.reserved_lt
  have hin := v.in_partition
  have hend := v.end_lt
  rw [endClusterBits, shiftRight_eq_div_pow, clusterOfs, clusterBeginLba, span, Fat.signExtend]
  congr 2
  split <;> omega

theorem clustersInside_iff (v : Partition) (hend : 2 < v.endCluster) : ClustersInside v.toVolume ↔
      Low v.toVolume ∧ clusterPos v.toVolume v.endCluster ≤ v.partLen * v.sectorSize := by
  have hlt : v.endCluster < 2 ^ 31 := by
    rw [endCluster]
    split
    · assumption
    · decide
  have hbytes := v.bytes_lt
  constructor
  · intro h
    have hlow : Low v.toVolume := by
      by_contra hlow
      obtain ⟨p, hp, hin⟩ := h 2 le_rfl hend
      obtain ⟨p', hp', hout⟩ := offsetofCluster_small v.toVolume (c := 2) le_rfl (by decide)
      cases hp.symm.trans hp'
      rw [if_neg hlow] at hout
      exact absurd (hout rfl) (by omega)
    obtain ⟨p, hp, hin⟩ := h (v.endCluster - 1) (by omega) (by omega)
    obtain ⟨p', hp', hpos⟩ :=
      offsetofCluster_small v.toVolume (c := v.endCluster - 1) (by omega) (by omega)
    cases hp.symm.trans hp'
    rw [if_pos hlow] at hpos
    have hlast : clusterPos v.toVolume v.endCluster = p + v.blockSize := by
      rw [hpos, clusterPos, clusterPos, add_assoc, ← succ_mul]
      congr 2
      omega
    exact ⟨hlow, hlast ▸ hin⟩
  · rintro ⟨hlow, hle⟩ c hc hce
    obtain ⟨p, hp, hpos⟩ := offsetofCluster_small v.toVolume hc (by omega)
    rw [if_pos hlow] at hpos
    exact ⟨p, hp, hpos ▸ (clusterPos_le hce hc).trans hle⟩

/-- The last cluster ends inside of the partition if the drive has no cluster before it. -/
theorem clusterPos_end_iff (v : Partition) (hcut : v.span / 2 ^ v.blockShift < 2 ^ 31)
    (hend : 2 < v.endCluster) : clusterPos v.toVolume v.endCluster ≤ v.partLen * v.sectorSize ↔
      v.partSt ≤ v.span % 2 ^ v.blockShift := by
  have heq : v.endCluster = v.span / 2 ^ v.blockShift := by
    rw [endCluster, endClusterBits_eq, mod_eq_of_lt (by omega), if_pos hcut]
  have hdiv := div_add_mod' v.span (2 ^ v.blockShift)
  rw [← heq] at hdiv
  have hsub : (v.endCluster - 2) * 2 ^ v.blockShift + 2 * 2 ^ v.blockShift =
      v.endCluster * 2 ^ v.blockShift := by
    rw [← Nat.add_mul, Nat.sub_add_cancel (by omega)]
  rw [clusterPos, dataStart, blockSize_eq, ← mul_assoc, ← Nat.add_mul]
  refine (Nat.mul_le_mul_right_iff (Nat.two_pow_pos _)).trans ?_
  have hspan : v.span = v.partSt + v.partLen + 2 * 2 ^ v.blockShift -
    (v.reservedSectors + 2 * v.secPerFat) := rfl
  omega

/-- **The range of the allocator.** It is inside of the partition if it is empty, or if the offset
of the data area does not overflow and the last cluster ends inside; where `end_cluster` was not
cut to 32 bits, that is only so for a partition in the first cluster of the drive. -/
theorem clusters_inside_iff (v : Partition) : (ClustersInside v.toVolume ↔ v.endCluster ≤ 2 ∨
      Low v.toVolume ∧ clusterPos v.toVolume v.endCluster ≤ v.partLen * v.sectorSize) ∧
    (v.span / 2 ^ v.blockShift < 2 ^ 31 → (ClustersInside v.toVolume ↔ v.endCluster ≤ 2 ∨
      Low v.toVolume ∧ v.partSt ≤ v.span % 2 ^ v.blockShift)) := by
  by_cases hend : v.endCluster ≤ 2
  · have hempty : ClustersInside v.toVolume := fun c hc hlt => absurd hc (by omega)
    simp [hend, hempty]
  · have hend := Nat.lt_of_not_le hend
    simp only [clustersInside_iff v hend, not_le.2 hend, false_or, true_and]
    exact fun hcut => by rw [clusterPos_end_iff v hcut hend]

/-- On a partition that begins at sector 2048, the last cluster is 1 MiB behind the end. -/
theorem cluster_behind_partition :
    72049 < smallVolume.endCluster ∧ offsetofCluster smallVolume 72049 = .ok (73279 * 512) ∧
      smallVolume.partLen = 71232 ∧ ¬ ClustersInside smallVolume := by
  refine ⟨by decide, by decide, rfl, fun h => ?_⟩
  obtain ⟨p, hp, hle⟩ := h 72049 (by decide) (by decide)
  cases hp
  exact absurd hle (by decide)

/-! ## Extending a chain -/

/-- The list of clusters, with as many as were asked for; their number is returned.
mirrors fat32.cc:562-576 -/
def extendFatChain (v : Volume) : Nat → St → Nat → Except Err (List Nat × St)
  | 0, st, _ => .ok ([], st)
  | count + 1, st, cluster => do
    let (cluster, st) ← allocateNear v st cluster
    let (clusters, st) ← extendFatChain v count st cluster
    return (cluster :: clusters, st)

/-- A number below `count` is returned and the FAT is unchanged, or `count` clusters that were free
are behind the given one, and the last one has an end mark. -/
def ExtendRight (v : Volume) (st : St) (count cluster : Nat) : Prop :=
  ∃ clusters st', extendFatChain v count st cluster = .ok (clusters, st') ∧
    (clusters.length < count ∧ st'.fat = st.fat ∨
      clusters.length = count ∧ Fat.Linked st'.fat (cluster :: clusters) ∧
        ∀ c ∈ clusters, isFree (st.fat c) = true ∧ c < v.endCluster)

/-- The clusters that can be taken. -/
def freeClusters (v : Volume) (fat : Nat → Nat) : Finset Nat :=
  (Finset.range v.endCluster).filter fun c => 2 ≤ c ∧ isFree (fat c)

section extend

variable {v : Volume} {st st' : St} {count cluster : Nat} {clusters : List Nat}

/-- The list is as long as it should be, and the entry of a cluster that is in it is 1. -/
theorem extendFatChain_fat (h : extendFatChain v count st cluster = .ok (clusters, st')) :
    clusters.length = count ∧ (∀ c, st.fat c = 1 → st'.fat c = 1) ∧
      ∀ c ∈ clusters, c = 0 ∨ st'.fat c = 1 := by
  induction count generalizing st cluster clusters with
  | zero =>
    cases h
    exact ⟨rfl, fun _ => id, fun c hc => by cases hc⟩
  | succ count ih =>
    obtain ⟨⟨a, st1⟩, halloc, h⟩ := bind_eq_ok h
    obtain ⟨⟨l, st2⟩, hrest, h⟩ := bind_eq_ok h
    cases h
    obtain ⟨hlen, hones, hmem⟩ := ih hrest
    refine ⟨by rw [List.length_cons, hlen], ?_⟩
    rcases allocateNear_cases halloc with ⟨rfl, rfl⟩ | ⟨-, -, rfl, -⟩
    · exact ⟨hones, List.forall_mem_cons.2 ⟨.inl rfl, hmem⟩⟩
    · exact ⟨fun c hc => hones c (by simp [taken, setEntry, hc]),
        List.forall_mem_cons.2 ⟨.inr (hones a (if_pos rfl)), hmem⟩⟩

theorem freeClusters_taken (a : Nat) :
    freeClusters v (taken v st a).fat = (freeClusters v st.fat).erase a := by
  ext c
  have hfree : isFree (setEntry st.fat a 1 c) = true ↔ c ≠ a ∧ isFree (st.fat c) = true := by
    unfold setEntry
    by_cases h : c = a
    · simp [h, isFree]
    · simp [h]
  rw [mem_erase, freeClusters, freeClusters, mem_filter, mem_filter]
  tauto

/-- The list has a 0 if there were not enough free clusters. -/
theorem extendFatChain_zero (hend : 3 ≤ v.endCluster)
    (h : extendFatChain v count st cluster = .ok (clusters, st')) :
    0 ∈ clusters ↔ (freeClusters v st.fat).card < count := by
  induction count generalizing st cluster clusters with
  | zero =>
    cases h
    simp
  | succ count ih =>
    obtain ⟨⟨a, st1⟩, halloc, h⟩ := bind_eq_ok h
    obtain ⟨⟨l, st2⟩, hrest, h⟩ := bind_eq_ok h
    cases h
    rcases allocateNear_cases halloc with ⟨rfl, rfl⟩ | ⟨hfree, hsits, rfl, -, x, hx⟩
    · have hnone : freeClusters v st1.fat = ∅ := by
        refine filter_eq_empty_iff.2 fun c hc ⟨hge, hfree⟩ => ?_
        have hwrap : wrap v c = c := if_neg (by simp at hc; omega)
        have := full_of_zero halloc c (by omega)
        rw [hwrap, hfree] at this
        cases this
      simp [hnone]
    · have ha : a ∈ freeClusters v st.fat := by
        have hlt := wrap_lt v x
        exact mem_filter.2 ⟨mem_range.2 (by omega), hsits.ge, hfree⟩
      have hcard := card_erase_add_one ha
      rw [List.mem_cons, ih hrest, freeClusters_taken, ← hcard, succ_lt_succ_iff, or_iff_right]
      exact fun h0 => absurd hsits.ge (by omega)

end extend

/-- **Extending a chain.** The chain is extended only by no clusters; and the list has the
cluster 0 in it exactly if fewer clusters were free than were asked for. -/
theorem extend_right_iff (v : Volume) (st : St) (count cluster : Nat) :
    (ExtendRight v st count cluster ↔ count = 0 ∧ Fat.Linked st.fat [cluster]) ∧
    (3 ≤ v.endCluster → ∀ clusters st', extendFatChain v count st cluster = .ok (clusters, st') →
      (0 ∈ clusters ↔ (freeClusters v st.fat).card < count)) := by
  refine ⟨⟨?_, ?_⟩, fun hend clusters st' h => extendFatChain_zero hend h⟩
  · rintro ⟨clusters, st', h, ⟨hlt, -⟩ | ⟨hlen, hlinked, -⟩⟩
    · have := (extendFatChain_fat h).1
      omega
    · cases clusters with
      | nil =>
        obtain rfl : 0 = count := hlen
        cases h
        exact ⟨rfl, hlinked⟩
      | cons c l =>
        -- the last entry is 1, which is no end mark
        have hlast := Fat.Linked.suffix (a := cluster :: (c :: l).dropLast)
          (l := [(c :: l).getLast (List.cons_ne_nil c l)])
          (by rw [List.cons_append, List.dropLast_append_getLast]; exact hlinked)
          (List.cons_ne_nil _ _)
        rcases (extendFatChain_fat h).2.2 _ (List.getLast_mem (List.cons_ne_nil c l)) with h0 | h1
        · rw [h0] at hlast
          exact absurd hlast.1.1 (by decide)
        · exact absurd hlast.2 (by rw [h1]; decide)
  · rintro ⟨rfl, hlinked⟩
    exact ⟨[], st, rfl, .inr ⟨rfl, hlinked, fun c hc => by cases hc⟩⟩

/-- A volume whose only cluster is that of the directory. -/
def tinyVolume : Volume :=
  { smallVolume with
    partSt := 0, partLen := 1233, clusters := 1
    fat_ge := by decide, clusters_le := by decide, in_partition := by decide }

/-- Without a free cluster the answer is one cluster, and its number is 0. -/
theorem cluster_zero_answered : Fat.Linked (smallDir []).fat [2] ∧
    extendFatChain tinyVolume 1 (smallDir []) 2 = .ok ([0], smallDir []) ∧
      ¬ ExtendRight tinyVolume (smallDir []) 1 2 := by
  have hrun : extendFatChain tinyVolume 1 (smallDir []) 2 = .ok ([0], smallDir []) := rfl
  refine ⟨⟨⟨le_rfl, by decide⟩, by decide⟩, hrun, ?_⟩
  rintro ⟨clusters, st', h, hor⟩
  cases hrun.symm.trans h
  rcases hor with ⟨hlt, -⟩ | ⟨-, hlinked, -⟩
  · exact absurd hlt (by decide)
  · exact absurd hlinked.2.2.1.1 (by decide)

end Dgos.L3.Fat32
