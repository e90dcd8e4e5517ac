import Dgos.L3Files.Fat32

/-!
# Where the loop of `internal_rw` looks for a byte

`raw k` is what the code takes for the number of the `k`-th cluster of a file: the FAT entry of
the cluster before it with its reserved bits. Its low 28 bits are the cluster.

Results:
* `offsetofCluster_right_iff`: the offset of a cluster is right if its number has no reserved
  bits and the data area does not begin beyond 2 GiB.
* `seek_eq`: from any cached position the loop gets to any block of the file, unless it has to
  follow an entry with reserved bits; such an entry is an index beyond the FAT.
-/
namespace Dgos.L3.Fat32

open Int Volume Nat
open Fat (signExtend IsCluster link)

/-! ## Places on the volume -/

section Volume

variable (v : Volume)

theorem blockSize_eq : v.blockSize = 2 ^ v.blockShift * v.sectorSize := by
  rw [blockSize, Nat.shiftLeft_eq, mul_comm]

theorem blockSize_eq_pow : v.blockSize = 2 ^ (v.sectorShift + v.blockShift) := by
  rw [blockSize, Nat.shiftLeft_eq, sectorSize, ← pow_add]

theorem blockSize_le : v.blockSize ≤ 2 ^ 19 := by
  rw [blockSize_eq_pow]
  have := v.sector_le
  have := v.block_le
  exact Nat.pow_le_pow_right (by decide) (by omega)

theorem blockSize_ge : 2 ^ 9 ≤ v.blockSize := by
  rw [blockSize_eq_pow]
  have := v.sector_ge
  exact Nat.pow_le_pow_right (by decide) (by omega)

theorem blockSize_pos : 0 < v.blockSize := lt_of_lt_of_le (by decide) (blockSize_ge v)

theorem dataStart_lt : v.dataStart < 2 ^ 31 + 2 ^ 28 := by
  have hsec : v.sectorSize ≤ 2 ^ 12 := Nat.pow_le_pow_right (by decide) v.sector_le
  have hres : v.reservedSectors * v.sectorSize ≤ (2 ^ 16 - 1) * 2 ^ 12 :=
    Nat.mul_le_mul (Nat.le_sub_one_of_lt v.reserved_lt) hsec
  have hfat : v.secPerFat * v.sectorSize ≤ 2 ^ 30 := v.fat_le
  rw [dataStart, add_mul, mul_assoc]
  omega

/-- The data area does not begin beyond 2 GiB, or not by more than two blocks. -/
def Low : Prop := v.dataStart < 2 ^ 31 + 2 * v.blockSize

instance : Decidable (Low v) := by unfold Low; infer_instance

/-- The first byte of a cluster. -/
def clusterPos (cluster : Nat) : Nat := v.dataStart + (cluster - 2) * v.blockSize

theorem clusterOfs_shift : v.clusterOfs <<< v.sectorShift % 2 ^ 32 =
      (v.dataStart + (2 ^ 32 - 2 * v.blockSize)) % 2 ^ 32 := by
  have hS : 0 < v.sectorSize := Nat.two_pow_pos _
  have hle := blockSize_le v
  have hsplit : (v.reservedSectors + 2 * v.secPerFat + (2 ^ 64 - 2 * 2 ^ v.blockShift)) *
      v.sectorSize = v.dataStart + (2 ^ 64 * v.sectorSize - 2 * v.blockSize) := by
    rw [add_mul, dataStart, Nat.sub_mul, mul_assoc 2, ← blockSize_eq]
  rw [clusterOfs, clusterBeginLba, mod_mod_of_dvd _ (by decide),
    Nat.shiftLeft_eq, Nat.mod_mul_mod, ← sectorSize]
  omega

/-- How much too low the offset of cluster 0 is. -/
def shortfall : Int := if Low v then 0 else 2 ^ 32

theorem signExtend_clusterOfs :
    ∃ k : Int, (signExtend (v.clusterOfs <<< v.sectorShift % 2 ^ 32) : Int) =
      v.dataStart - 2 * v.blockSize - shortfall v + 2 ^ 64 * k := by
  have hle := blockSize_le v
  have hlt := dataStart_lt v
  rw [clusterOfs_shift, signExtend, shortfall]
  by_cases hlow : Low v
  · rw [if_pos hlow]
    rw [Low] at hlow
    split
    · exact ⟨0, by omega⟩
    · exact ⟨1, by omega⟩
  · rw [if_neg hlow]
    rw [Low] at hlow
    rw [if_neg (by omega)]
    exact ⟨1, by omega⟩

/-- The reserved bits of a `cluster_t` as a signed number. -/
def reserved (raw : Nat) : Int := if raw < 2 ^ 31 then raw / 2 ^ 28 else raw / 2 ^ 28 - 16

theorem signExtend_raw (raw : Nat) : ∃ k : Int, (signExtend raw : Int) =
      (raw % 2 ^ 28 : Nat) + 2 ^ 28 * reserved raw + 2 ^ 64 * k := by
  rw [signExtend, reserved]
  split
  · exact ⟨0, by omega⟩
  · exact ⟨1, by omega⟩

variable {raw : Nat}

theorem reserved_eq_zero_iff (h : raw < 2 ^ 32) : reserved raw = 0 ↔ raw = raw % 2 ^ 28 := by
  rw [reserved]
  split <;> omega

/-- The code's offset of a cluster, compared with the right one. -/
theorem offsetofCluster_eq {c : Nat} (hc : 2 ≤ c) (hraw : raw < 2 ^ 32) (hlow : raw % 2 ^ 28 = c) :
    ∃ p : Nat, offsetofCluster v raw = .ok p ∧ ∃ k : Int,
      (p : Int) = clusterPos v c + 2 ^ 28 * (reserved raw * v.blockSize) - shortfall v +
        2 ^ 64 * k := by
  have hge : 2 ≤ signExtend raw := by
    rw [signExtend]
    split <;> omega
  rw [offsetofCluster, if_pos hge, Nat.shiftLeft_eq (signExtend raw), ← blockSize_eq_pow]
  refine ⟨_, rfl, ?_⟩
  obtain ⟨k1, hbase⟩ := signExtend_clusterOfs v
  obtain ⟨k2, hcluster⟩ := signExtend_raw raw
  rw [hlow] at hcluster
  have hpos : (clusterPos v c : Int) = v.dataStart + (c - 2) * v.blockSize := by
    rw [clusterPos, Int.natCast_add, Int.natCast_mul, Int.natCast_sub hc]
    rfl
  rw [natCast_emod, emod_def, natCast_add, natCast_mul, hbase, hcluster, hpos]
  generalize (_ : Int) / ((2 ^ 64 : Nat) : Int) = q
  exact ⟨k1 + k2 * v.blockSize - q, by ring⟩

/-- Reserved bits and the wrap cannot make up for each other. -/
theorem error_eq_zero_iff (raw : Nat) :
    2 ^ 28 * (reserved raw * v.blockSize) - shortfall v = 0 ↔ reserved raw = 0 ∧ Low v := by
  have hge := blockSize_ge v
  by_cases hlow : Low v
  · rw [shortfall, if_pos hlow, and_iff_left hlow]
    constructor
    · intro h
      have hmul : reserved raw * v.blockSize = 0 := by omega
      rcases mul_eq_zero.mp hmul with h0 | h0
      · exact h0
      · omega
    · intro h0
      rw [h0]
      omega
  · rw [shortfall, if_neg hlow, iff_false_right fun h => hlow h.2]
    rcases Int.lt_or_le 0 (reserved raw) with hpos | hneg
    · have : (1 : Int) * v.blockSize ≤ reserved raw * v.blockSize :=
        mul_le_mul_of_nonneg_right hpos (by omega)
      omega
    · have : reserved raw * v.blockSize ≤ 0 :=
        mul_nonpos_of_nonpos_of_nonneg hneg (by omega)
      omega

/-- With reserved bits, or with a wrapped offset, the code looks at another place. -/
theorem offsetofCluster_right_iff {c o : Nat} (hc : 2 ≤ c) (hraw : raw < 2 ^ 32)
    (hlow : raw % 2 ^ 28 = c) (hlt : o < v.blockSize) : ∃ p, offsetofCluster v raw = .ok p ∧
      ((p + o) % 2 ^ 64 = clusterPos v c + o ↔ raw = c ∧ Low v) := by
  obtain ⟨p, hp, k, hk⟩ := offsetofCluster_eq v hc hraw hlow
  refine ⟨p, hp, ?_⟩
  have hle := blockSize_le v
  have hD := dataStart_lt v
  obtain ⟨hr, hr'⟩ : -8 ≤ reserved raw ∧ reserved raw ≤ 7 := by
    rw [reserved]
    split <;> omega
  have hpos : clusterPos v c < 2 ^ 48 := by
    have : (c - 2) * v.blockSize ≤ 2 ^ 28 * 2 ^ 19 := Nat.mul_le_mul (by omega) hle
    rw [clusterPos]
    omega
  -- the error is too small for a multiple of 2^64 other than 0
  have hzero : (p + o) % 2 ^ 64 = clusterPos v c + o ↔
      2 ^ 28 * (reserved raw * v.blockSize) - shortfall v = 0 := by
    have hq : -8 * (2 ^ 19 : Int) ≤ reserved raw * v.blockSize := by nlinarith
    have hq' : reserved raw * v.blockSize ≤ 7 * (2 ^ 19 : Int) := by nlinarith
    have hs : shortfall v = 0 ∨ shortfall v = 2 ^ 32 := by
      rw [shortfall]
      split
      · exact .inl rfl
      · exact .inr rfl
    omega
  rw [hzero, error_eq_zero_iff, reserved_eq_zero_iff hraw, hlow]

end Volume

/-! ## Files -/

/-- A file of a volume. The reserved bits of the FAT entries are arbitrary. -/
structure File (v : Volume) (fat : Nat → Nat) extends Fat.File fat v.blockSize where
  entry_lt : ∀ c ∈ chain, fat c < 2 ^ 32
  in_volume : ∀ c ∈ chain, c < v.clusters + 2

section

variable {v : Volume} {fat : Nat → Nat} (f : File v fat)

/-- What the code takes for the number of the `k`-th cluster. -/
def raw : Nat → Nat
  | 0 => f.start
  | k + 1 => fat (f.chain.getD k 0)

/-- The first `n` clusters are named without reserved bits. -/
def Clean (n : Nat) : Prop := ∀ k < n, raw f k < 2 ^ 28

variable {f}

theorem Clean.mono {n m : Nat} (h : Clean f n) (hle : m ≤ n) : Clean f m :=
  fun k hk => h k (lt_of_lt_of_le hk hle)

theorem clean_succ {n : Nat} : Clean f (n + 1) ↔ Clean f n ∧ raw f n < 2 ^ 28 := by
  constructor
  · exact fun h => ⟨h.mono (le_succ n), h n (lt_succ_self n)⟩
  · rintro ⟨h, hn⟩ k hk
    rcases Nat.lt_succ_iff_lt_or_eq.mp hk with hlt | rfl
    · exact h k hlt
    · exact hn

variable {k : Nat} {st : St}

theorem linked_of_lt (hk : k < f.chain.length) : Fat.Linked fat f.chain := by
  rcases f.linked with hnil | hl
  · rw [hnil] at hk
    cases hk
  · exact hl

theorem getD_mem (hk : k < f.chain.length) : f.chain.getD k 0 ∈ f.chain := by
  rw [List.getD_eq_getElem _ _ hk]
  exact List.getElem_mem hk

theorem isCluster_getD (hk : k < f.chain.length) : IsCluster (f.chain.getD k 0) :=
  (linked_of_lt hk).isCluster _ (getD_mem hk)

theorem start_eq_getD : f.start = f.chain.getD 0 0 := by
  rw [Fat.File.start]
  cases f.chain <;> rfl

theorem isEof_eq (entry : Nat) :
    isEof entry = decide (link entry < 2 ∨ 0x0FFFFFF8 ≤ link entry) := by
  rw [isEof, show (0x0FFFFFFF : Nat) = 2 ^ 28 - 1 from rfl, and_two_pow_sub_one_eq_mod]
  rfl

theorem isEof_of_isCluster {entry : Nat} (h : IsCluster (link entry)) : isEof entry = false := by
  have := h.1
  have := h.2
  rw [isEof_eq, decide_eq_false_iff_not]
  omega

section

variable (hk : k < f.chain.length)
include hk

theorem raw_mod : raw f k % 2 ^ 28 = f.chain.getD k 0 := by
  cases k with
  | zero =>
    have := (isCluster_getD hk).2
    rw [raw, start_eq_getD]
    omega
  | succ k => exact (linked_of_lt hk).link_getD hk

theorem raw_lt : raw f k < 2 ^ 32 := by
  cases k with
  | zero =>
    have := (isCluster_getD hk).2
    rw [raw, start_eq_getD]
    omega
  | succ k => exact f.entry_lt _ (getD_mem (lt_of_succ_lt hk))

theorem raw_ge : 2 ≤ raw f k := by
  have := raw_mod hk
  have := (isCluster_getD hk).1
  omega

theorem raw_eq_getD (hclean : raw f k < 2 ^ 28) : raw f k = f.chain.getD k 0 := by
  have := raw_mod hk
  omega

theorem isEof_raw : isEof (raw f k) = false :=
  isEof_of_isCluster (show IsCluster (raw f k % 2 ^ 28) from raw_mod hk ▸ isCluster_getD hk)

end

/-! ## Following the chain -/

/-- The state belongs to the file. -/
structure Holds (f : File v fat) (st : St) : Prop where
  fat_eq : st.fat = fat
  start_eq : st.dirent.start = f.start
  size_eq : st.dirent.size = f.size
  not_dir : st.dirent.isDirectory = false

/-- The cached position moved to the `k`-th cluster. -/
def moveTo (f : File v fat) (st : St) (k : Nat) : St :=
  { st with cachedOffset := k * v.blockSize, cachedCluster := raw f k }

/-- The cached position is at the `k`-th cluster. -/
def At (f : File v fat) (st : St) (k : Nat) : Prop := moveTo f st k = st

theorem Holds.moveTo (h : Holds f st) (k : Nat) : Holds f (moveTo f st k) :=
  ⟨h.fat_eq, h.start_eq, h.size_eq, h.not_dir⟩

theorem at_moveTo (st : St) (k : Nat) : At f (moveTo f st k) k := rfl

theorem At.cachedOffset (h : At f st k) : st.cachedOffset = k * v.blockSize := by
  rw [← h]
  rfl

theorem At.cachedCluster (h : At f st k) : st.cachedCluster = raw f k := by
  rw [← h]
  rfl

theorem fatEntries_le : v.fatEntries ≤ 2 ^ 28 := by
  have := v.fat_le
  rw [fatEntries, sectorSize]
  omega

theorem lt_fatEntries {c : Nat} (h : c < v.clusters + 2) : c < v.fatEntries := by
  have := v.fat_ge
  rw [fatEntries, sectorSize]
  omega

theorem fatAt_raw (h : Holds f st) (hk : k < f.chain.length)
    (hclean : raw f k < 2 ^ 28) : fatAt v st (raw f k) = .ok (raw f (k + 1)) := by
  rw [raw_eq_getD hk hclean, fatAt, if_pos (lt_fatEntries (f.in_volume _ (getD_mem hk))),
    h.fat_eq, raw]

/-- An entry with reserved bits is beyond the FAT. -/
theorem fatAt_reserved (st : St) {raw : Nat} (h : ¬ raw < 2 ^ 28) :
    fatAt v st raw = .error .outOfBounds := by
  have := fatEntries_le (v := v)
  rw [fatAt, if_neg (by omega)]

theorem advance_eq (h : Holds f st) (hat : At f st k)
    (hk : k < f.chain.length) (hclean : raw f k < 2 ^ 28) :
    advance v st = .ok (moveTo f st (k + 1)) := by
  rw [advance, hat.cachedCluster, ok_bind (fatAt_raw h hk hclean), hat.cachedOffset, moveTo,
    add_mul, one_mul]
  rfl

theorem moveTo_moveTo (st : St) (j k : Nat) : moveTo f (moveTo f st j) k = moveTo f st k := rfl

section Walk

variable {append : Bool} {offset : Nat}

theorem block_le_iff {j : Nat} :
    j * v.blockSize + v.blockSize ≤ offset ↔ j + 1 ≤ offset / v.blockSize := by
  rw [le_div_iff_mul_le (blockSize_pos v), add_mul, one_mul]

section

variable (h : Holds f st) {j fuel : Nat} (hat : At f st j) (pending : Bool)
  (hlen : offset / v.blockSize < f.chain.length)
include h hat hlen

theorem walkLoop_step (hlast : j + 1 ≤ offset / v.blockSize) (hraw : raw f j < 2 ^ 28) :
    walkLoop v append offset (fuel + 1) st (j * v.blockSize) pending =
      walkLoop v append offset fuel (moveTo f st (j + 1)) ((j + 1) * v.blockSize) pending := by
  have hjlen : j < f.chain.length := by omega
  rw [walkLoop, if_pos (block_le_iff.mpr hlast), hat.cachedCluster,
    ok_bind (fatAt_raw h hjlen hraw), if_neg (by rw [isEof_raw (by omega)]; nofun),
    ok_bind (advance_eq h hat hjlen hraw), add_mul, one_mul]

variable (hj : j ≤ offset / v.blockSize) (hfuel : offset / v.blockSize - j < fuel)
include hj hfuel

/-- The walk gets to the block with the offset. -/
theorem walkLoop_eq (hclean : Clean f (offset / v.blockSize)) :
    walkLoop v append offset fuel st (j * v.blockSize) pending =
      .ok (moveTo f st (offset / v.blockSize), pending) := by
  induction fuel generalizing st j with
  | zero => cases hfuel
  | succ fuel ih =>
    by_cases hlast : j + 1 ≤ offset / v.blockSize
    · rw [walkLoop_step h hat pending hlen hlast (hclean j hlast)]
      exact ih (h.moveTo _) (at_moveTo st _) hlast (by omega)
    · have hjt : offset / v.blockSize = j := by omega
      rw [walkLoop, if_neg (mt block_le_iff.mp hlast), hjt, show moveTo f st j = st from hat]
      rfl

/-- The walk stops at an entry with reserved bits. -/
theorem walkLoop_reserved (hclean : Clean f j) (hdirty : ¬ Clean f (offset / v.blockSize)) :
    walkLoop v append offset fuel st (j * v.blockSize) pending = .error .outOfBounds := by
  induction fuel generalizing st j with
  | zero => cases hfuel
  | succ fuel ih =>
    have hlast : j + 1 ≤ offset / v.blockSize := by
      rcases eq_or_lt_of_le hj with heq | hlt
      · exact absurd (heq ▸ hclean) hdirty
      · exact hlt
    by_cases hraw : raw f j < 2 ^ 28
    · rw [walkLoop_step h hat pending hlen hlast hraw]
      exact ih (h.moveTo _) (at_moveTo st _) hlast (by omega) (clean_succ.mpr ⟨hclean, hraw⟩)
    · rw [walkLoop, if_pos (block_le_iff.mpr hlast), hat.cachedCluster, fatAt_reserved st hraw]
      rfl

end

theorem at_start (h : Holds f st) :
    { st with cachedCluster := st.dirent.start, cachedOffset := 0 } = moveTo f st 0 := by
  rw [moveTo, raw, h.start_eq, zero_mul]

theorem div_blockSize_lt_succ : offset / v.blockSize - 0 < offset + 1 := by
  have := div_le_self offset v.blockSize
  omega

theorem walkClusterChain_eq (h : Holds f st)
    (hlen : offset / v.blockSize < f.chain.length) (hclean : Clean f (offset / v.blockSize)) :
    walkClusterChain v (moveTo f st 0) offset append =
      .ok (moveTo f st (offset / v.blockSize)) := by
  have hwalk : walkLoop v append offset (offset + 1) (moveTo f st 0) (0 * v.blockSize) false = _ :=
    walkLoop_eq (h.moveTo 0) (at_moveTo st 0) false hlen (zero_le _) div_blockSize_lt_succ hclean
  rw [zero_mul] at hwalk
  have hne : ¬ (append = true ∧ (moveTo f st (offset / v.blockSize)).cachedCluster = 0) := by
    have := raw_ge hlen
    rintro ⟨-, h0⟩
    rw [(at_moveTo st _).cachedCluster] at h0
    omega
  rw [walkClusterChain, ok_bind hwalk]
  simp only
  rw [moveTo_moveTo, firstCluster, if_neg hne]
  rfl

theorem walkClusterChain_reserved (h : Holds f st)
    (hlen : offset / v.blockSize < f.chain.length) (hdirty : ¬ Clean f (offset / v.blockSize)) :
    walkClusterChain v (moveTo f st 0) offset append = .error .outOfBounds := by
  have hwalk : walkLoop v append offset (offset + 1) (moveTo f st 0) (0 * v.blockSize) false = _ :=
    walkLoop_reserved (h.moveTo 0) (at_moveTo st 0) false hlen (zero_le _) div_blockSize_lt_succ
      nofun hdirty
  rw [zero_mul] at hwalk
  rw [walkClusterChain, hwalk]
  rfl

end Walk

/-! ## Moving the cached position -/

section Seek

variable {offset : Nat} (read : Bool)

theorem isWithinSize_iff (h : Holds f st) :
    st.dirent.isWithinSize offset = true ↔ offset < f.size := by
  rw [Dirent.isWithinSize, h.size_eq, h.not_dir]
  simp

theorem div_blockSize_lt_length (h : offset < f.size) : offset / v.blockSize < f.chain.length := by
  rw [div_lt_iff_lt_mul (blockSize_pos v)]
  exact lt_of_lt_of_le h f.size_le

theorem next_block_iff :
    (k + 1) * v.blockSize ≤ offset ∧ offset < (k + 1) * v.blockSize + v.blockSize ↔
      offset / v.blockSize = k + 1 := by
  have hpos := blockSize_pos v
  have hsucc : (k + 1) * v.blockSize + v.blockSize = (k + 2) * v.blockSize := by
    rw [add_mul, add_mul]
    omega
  rw [hsucc, ← le_div_iff_mul_le hpos, ← div_lt_iff_lt_mul hpos]
  omega

theorem other_block_iff :
    offset < k * v.blockSize ∨ (k + 1) * v.blockSize ≤ offset ↔ offset / v.blockSize ≠ k := by
  have hpos := blockSize_pos v
  rw [← le_div_iff_mul_le hpos, ← div_lt_iff_lt_mul hpos]
  omega

section

variable (h : Holds f st) (hat : At f st k) (hk : k < f.chain.length) (hofs : offset < f.size)
include h hat hk hofs

theorem seek_cases : seek v read st ((k + 1) * v.blockSize) offset =
      if offset / v.blockSize = k + 1 then do
        let st ← advance v st
        return (st, st.cachedOffset + v.blockSize)
      else if offset / v.blockSize = k then .ok (st, (k + 1) * v.blockSize)
      else do
        let st ← walkClusterChain v (moveTo f st 0) offset (!read)
        if st.cachedCluster ≠ 0 ∧ (st.dirent.isDirectory ∨ 0 < st.dirent.size ∨ !read) then
          return (st, st.cachedOffset + v.blockSize)
        else return (st, 0) := by
  have hne : st.cachedCluster ≠ 0 := by
    have := raw_ge hk
    rw [hat.cachedCluster]
    omega
  have hwithin := (isWithinSize_iff h).mpr hofs
  rw [seek]
  by_cases hnext : offset / v.blockSize = k + 1
  · rw [if_pos hnext, if_pos ⟨hne, hwithin, next_block_iff.mpr hnext⟩]
  rw [if_neg hnext, if_neg fun hc => hnext (next_block_iff.mp hc.2.2)]
  by_cases hsame : offset / v.blockSize = k
  · rw [if_pos hsame, if_neg]
    · rfl
    · rw [hat.cachedOffset]
      rintro (h0 | hother)
      · exact hne h0
      · exact other_block_iff.mp hother hsame
  · rw [if_neg hsame, if_pos, at_start h]
    rw [hat.cachedOffset]
    exact .inr (other_block_iff.mpr hsame)

theorem seek_eq (hclean : Clean f (offset / v.blockSize)) :
    seek v read st ((k + 1) * v.blockSize) offset =
      .ok (moveTo f st (offset / v.blockSize), (offset / v.blockSize + 1) * v.blockSize) := by
  have hend : (moveTo f st (offset / v.blockSize)).cachedOffset + v.blockSize =
      (offset / v.blockSize + 1) * v.blockSize := by
    rw [(at_moveTo st _).cachedOffset, add_mul, one_mul]
  rw [seek_cases read h hat hk hofs]
  by_cases hnext : offset / v.blockSize = k + 1
  · rw [if_pos hnext, ok_bind (advance_eq h hat hk (hclean k (by omega))), ← hnext, ← hend]
    rfl
  rw [if_neg hnext]
  by_cases hsame : offset / v.blockSize = k
  · rw [if_pos hsame, hsame, show moveTo f st k = st from hat]
  have hlen := div_blockSize_lt_length hofs
  have hne : (moveTo f st (offset / v.blockSize)).cachedCluster ≠ 0 := by
    have := raw_ge hlen
    rw [(at_moveTo st _).cachedCluster]
    omega
  have hsize : 0 < (moveTo f st (offset / v.blockSize)).dirent.size := by
    rw [(h.moveTo _).size_eq]
    omega
  rw [if_neg hsame, ok_bind (walkClusterChain_eq h hlen hclean),
    if_pos ⟨hne, .inr (.inl hsize)⟩, hend]
  rfl

theorem seek_reserved (hbefore : Clean f k) (hdirty : ¬ Clean f (offset / v.blockSize)) :
    seek v read st ((k + 1) * v.blockSize) offset = .error .outOfBounds := by
  rw [seek_cases read h hat hk hofs]
  by_cases hnext : offset / v.blockSize = k + 1
  · have hraw : ¬ raw f k < 2 ^ 28 := by
      rw [hnext, clean_succ] at hdirty
      exact fun hraw => hdirty ⟨hbefore, hraw⟩
    rw [if_pos hnext, advance, hat.cachedCluster, fatAt_reserved st hraw]
    rfl
  · have hsame : offset / v.blockSize ≠ k := fun hsame => hdirty (hsame ▸ hbefore)
    rw [if_neg hnext, if_neg hsame,
      walkClusterChain_reserved h (div_blockSize_lt_length hofs) hdirty]
    rfl

end

end Seek

end

end Dgos.L3.Fat32
