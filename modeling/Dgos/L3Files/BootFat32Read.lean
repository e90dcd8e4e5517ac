import Dgos.Core.Blocks
import Dgos.L3Files.BootFat32Plan

/-!
# What `fat32_boot_pread` reads

A file of a valid volume is a chain of clusters that are on the disk. `cut` says which sectors
hold the bytes of a request and which part of each; it is taken from the layout of the volume
and computed without any wrap.

Results:
* `sectorIteratorBegin_eq`: the first read caches exactly the chain.
* `pieces_eq`: inside of the file the loop makes the pieces of `cut`, with addresses modulo
  `2 ^ 32`.
* `pread_right_iff`: for which requests the bytes of the file, clipped at the file size, are
  returned. The request is never clipped: one that goes beyond the end reads on.
-/
namespace Dgos.L3.BootFat32

open List Prod Int Nat Fat Volume Except
open Nat (mod_eq_of_lt mod_lt)

/-! ## Files -/

/-- A file of a volume: its clusters and their FAT entries are on the disk. -/
structure File (v : Volume) extends Fat.File v.fat v.blockSize where
  on_disk : ∀ c ∈ chain, v.lbaOf c + v.secPerCluster ≤ v.sectors
  fat_on_disk : ∀ c ∈ chain, v.firstFatLba + c >>> (v.log2SectorSz - 2) < v.sectors

/-- The bytes of a chain of clusters. -/
def contents (v : Volume) (data : Data) (chain : List Nat) : Buf :=
  Fat.contents chain v.blockSize fun c => sectorBuf v data (v.lbaOf c)

/-- The address of sector `k` of a chain of clusters. -/
def sectorLba (v : Volume) (chain : List Nat) (k : Nat) : Nat :=
  v.lbaOf (chain.getD (k / v.secPerCluster) 0) + k % v.secPerCluster

theorem contents_apply (v : Volume) (data : Data) (chain : List Nat) (i : Nat) :
    contents v data chain i = data (sectorLba v chain (i / v.sectorSz)) (i % v.sectorSz) := by
  rw [contents, Fat.contents, sectorBuf, sectorLba, blockSize, Nat.mod_mul_right_div_self,
    Nat.mod_mul_right_mod, Nat.div_div_eq_div_mul]

/-! ## The cluster list -/

section

variable {v : Volume}

/-- The FAT buffer holds the sector it says it holds, if that is a sector of the FAT. -/
def BufOk (v : Volume) (b : FatBuf) : Prop :=
  ∀ i < 2 ^ 28, b.lba = v.firstFatLba + i → b.words = v.fatSector (v.firstFatLba + i)

theorem bufOk_initial (words : Nat → Nat) : BufOk v ⟨0, words⟩ := by
  intro i _ h
  have := v.fat_pos
  simp only at h
  omega

theorem bufOk_read {i : Nat} (hi : i < 2 ^ 28) :
    BufOk v ⟨(v.firstFatLba + i) % 2 ^ 32, v.fatSector (v.firstFatLba + i)⟩ := by
  intro j hj h
  simp only at h
  rw [show v.firstFatLba + i = v.firstFatLba + j by omega]

variable {b : FatBuf} {c fuel : Nat} {clusters : List Nat} {ps : List Piece}

theorem fillFatBuf_eq (hb : BufOk v b) (hc : IsCluster c)
    (hdisk : v.firstFatLba + c >>> (v.log2SectorSz - 2) < v.sectors) :
    ∃ b', fillFatBuf v b c = (true, b') ∧ BufOk v b' ∧
      b'.words = v.fatSector (v.firstFatLba + c >>> (v.log2SectorSz - 2)) := by
  have hidx : c >>> (v.log2SectorSz - 2) < 2 ^ 28 := by
    have := shiftRight_le c (v.log2SectorSz - 2)
    have := hc.2
    omega
  rw [fillFatBuf]
  split
  · rw [readFat, if_pos (diskRead_eq_true.mpr hdisk)]
    exact ⟨_, rfl, bufOk_read hidx, rfl⟩
  · next hsame => exact ⟨b, rfl, hb, hb _ hidx (Decidable.of_not_not hsame)⟩

theorem fatSector_entry (c : Nat) : v.fatSector (v.firstFatLba + c >>> (v.log2SectorSz - 2))
      (c &&& (1 <<< (v.log2SectorSz - 2) - 1)) = v.fat c := by
  rw [fatSector, Nat.add_sub_cancel_left, Nat.one_shiftLeft,
    Nat.and_two_pow_sub_one_eq_mod, Nat.shiftRight_eq_div_pow, Nat.div_add_mod']

theorem nextCluster_eq (hb : BufOk v b) (hc : IsCluster c)
    (hdisk : v.firstFatLba + c >>> (v.log2SectorSz - 2) < v.sectors) : ∃ b', nextCluster v b c =
        (true, if isEofCluster (link (v.fat c)) then 0 else link (v.fat c), b') ∧
      BufOk v b' := by
  obtain ⟨b', hfill, hok, hwords⟩ := fillFatBuf_eq hb hc hdisk
  refine ⟨b', ?_, hok⟩
  rw [nextCluster, hfill]
  simp only
  rw [hwords, fatSector_entry, link, ← Nat.and_two_pow_sub_one_eq_mod]

theorem not_isEofCluster (h : IsCluster c) : ¬ isEofCluster c := by
  have h1 := h.1
  have h2 := h.2
  rw [isEofCluster, decide_eq_true_iff]
  omega

/-- The walk meets the chain, whatever valid buffer it begins with. -/
theorem walkChain_eq {l : List Nat} (hl : Linked v.fat l) (hfuel : l.length < fuel)
    (hb : BufOk v b) (hdisk : ∀ c ∈ l, v.firstFatLba + c >>> (v.log2SectorSz - 2) < v.sectors) :
    ∃ b', walkChain v fuel b (l.headD 0) = .ok (true, l, b') ∧ BufOk v b' := by
  induction l generalizing fuel b with
  | nil => exact absurd hl id
  | cons c l ih =>
    obtain _ | fuel := fuel
    · omega
    have hc := hl.isCluster c mem_cons_self
    obtain ⟨b1, hnext, hb1⟩ := nextCluster_eq hb hc (hdisk c mem_cons_self)
    rw [headD_cons, walkChain, if_neg (not_isEofCluster hc), hnext]
    cases l with
    | nil =>
      obtain ⟨fuel, rfl⟩ : ∃ n, fuel = n + 1 := ⟨fuel - 1, by simp at hfuel; omega⟩
      have hend : isEofCluster (link (v.fat c)) = true :=
        decide_eq_true (.inr hl.2)
      simp only
      rw [if_pos hend, walkChain]
      exact ⟨b1, rfl, hb1⟩
    | cons d l =>
      have hd := hl.tail.isCluster d mem_cons_self
      have hlink : link (v.fat c) = d := hl.2.1
      obtain ⟨b2, hwalk, hb2⟩ := ih hl.tail (lt_of_succ_lt_succ hfuel) hb1
        fun c' hc' => hdisk c' (mem_cons_of_mem c hc')
      rw [headD_cons] at hwalk
      simp only
      rw [hlink, if_neg (not_isEofCluster hd), hwalk]
      exact ⟨b2, rfl, hb2⟩

theorem walkChain_file (f : File v) (hb : BufOk v b) :
    ∃ b', walkChain v (maxChain + 1) b f.start = .ok (true, f.chain, b') ∧ BufOk v b' := by
  rcases f.linked with hnil | hl
  · rw [Fat.File.start, hnil, headD_nil, walkChain]
    exact ⟨b, rfl, hb⟩
  · exact walkChain_eq hl (lt_succ_of_lt hl.length_lt) hb f.fat_on_disk

theorem sectorIteratorBegin_eq (f : File v) {st : St} (hb : BufOk v st.buf) :
    ∃ b', sectorIteratorBegin v st f.start =
        .ok (readFirst v f.start, ⟨some f.chain, b'⟩) ∧ BufOk v b' := by
  obtain ⟨b1, hwalk1, hb1⟩ := walkChain_file f hb
  obtain ⟨b2, hwalk2, hb2⟩ := walkChain_file f hb1
  refine ⟨b2, ?_, hb2⟩
  rw [sectorIteratorBegin, ok_bind hwalk1]
  simp only
  rw [ok_bind hwalk2]
  rw [if_neg (lt_irrefl _)]
  rfl

theorem lbaFromCluster_eq (c : Nat) : lbaFromCluster v c = v.lbaOf c % 2 ^ 32 := by
  rw [lbaFromCluster, Nat.add_mod_mod, Nat.shiftLeft_eq, lbaOf, secPerCluster]

theorem secPerCluster_pos : 0 < v.secPerCluster := Nat.two_pow_pos _

/-- The first sector is read at an address that is taken for a signed one. -/
theorem readFirst_nonneg_iff (f : File v) :
    0 ≤ readFirst v f.start ↔ (f.chain ≠ [] → v.lbaOf f.start % 2 ^ 32 < 2 ^ 31) := by
  rcases f.linked with hnil | hl
  · rw [Fat.File.start, hnil, headD_nil, readFirst, if_pos (show isEofCluster 0 = true from rfl)]
    simp
  obtain ⟨c, l, hcl⟩ := exists_cons_of_ne_nil hl.ne_nil
  have hmem : c ∈ f.chain := by rw [hcl]; exact mem_cons_self
  have hdisk := f.on_disk c hmem
  have hpos := secPerCluster_pos (v := v)
  have hsectors := v.sectors_lt
  have hstart : f.start = c := by rw [Fat.File.start, hcl, headD_cons]
  rw [readFirst, hstart, if_neg (not_isEofCluster (hl.isCluster c hmem)),
    lbaFromCluster_eq, signExtend]
  by_cases hlt : v.lbaOf c % 2 ^ 32 < 2 ^ 31
  · rw [if_pos hlt, if_pos (diskRead_eq_true.mpr (by omega))]
    exact iff_of_true (by decide) fun _ => hlt
  · rw [if_neg hlt, if_neg (by rw [diskRead_eq_true]; omega)]
    exact iff_of_false (by decide) fun h => hlt (h (by rw [hcl]; nofun))

/-! ## Handles -/

/-- An open file: nothing is cached, or the whole chain. -/
structure Handle (v : Volume) (f : File v) where
  st : St
  clusters : st.clusters = none ∨ st.clusters = some f.chain
  buf : BufOk v st.buf

/-- The cluster list can be made, if it has to be. -/
def Starts (f : File v) (h : Handle v f) : Prop :=
  h.st.clusters = none → f.chain ≠ [] → v.lbaOf f.start % 2 ^ 32 < 2 ^ 31

theorem pread_eq (f : File v) (h : Handle v f) : ∃ h' : Handle v f, ∀ data m bytes ofs,
      (Starts f h → pread v data f.start h.st m bytes ofs =
        (transfer v data f.chain m bytes ofs).map fun r => (r.1, r.2, h'.st)) ∧
      (¬ Starts f h → pread v data f.start h.st m bytes ofs = .ok (-1, m, h'.st)) := by
  rcases h.clusters with hnone | hsome
  · obtain ⟨b', hbegin, hb'⟩ := sectorIteratorBegin_eq f h.buf
    have hstarts : Starts f h ↔ 0 ≤ readFirst v f.start := by
      rw [readFirst_nonneg_iff]
      exact ⟨fun hs => hs hnone, fun hs _ => hs⟩
    refine ⟨⟨⟨some f.chain, b'⟩, .inr rfl, hb'⟩, fun data m bytes ofs => ?_⟩
    rw [pread, hnone]
    simp only
    rw [ok_bind hbegin, hstarts]
    constructor
    · intro hpos
      rw [if_neg (not_lt.mpr hpos), Option.getD_some]
      cases transfer v data f.chain m bytes ofs <;> rfl
    · intro hneg
      rw [if_pos (not_le.mp hneg)]
      rfl
  · refine ⟨h, fun data m bytes ofs => ⟨fun _ => ?_, fun hno => ?_⟩⟩
    · rw [pread, hsome]
    · have hstarts : Starts f h := by
        intro hnone
        rw [hsome] at hnone
        cases hnone
      exact absurd hstarts hno

/-! ## The sectors of a request -/

variable (v)

/-- The part of sector `k` of a chain that is in the `bytes` bytes from `ofs`. -/
def sectorPiece (chain : List Nat) (ofs bytes k : Nat) : Piece :=
  let from' := max ofs (k * v.sectorSz)
  ⟨sectorLba v chain k, from' - k * v.sectorSz, min (ofs + bytes) ((k + 1) * v.sectorSz) - from'⟩

/-- The sectors from the one with the first byte to the one with the last. -/
def cut (chain : List Nat) (ofs bytes : Nat) : List Piece :=
  if bytes = 0 then []
  else
    let first := ofs / v.sectorSz
    let last := (ofs + bytes - 1) / v.sectorSz
    (List.range' first (last - first + 1)).map (sectorPiece v chain ofs bytes)

variable {v} {chain : List Nat} {p : Piece} {bytes ofs : Nat}

theorem sectorPiece_first (chain : List Nat) : sectorPiece v chain ofs bytes (ofs / v.sectorSz) =
      ⟨sectorLba v chain (ofs / v.sectorSz), ofs % v.sectorSz, headLen v.sectorSz ofs bytes⟩ := by
  have hdiv := Nat.div_add_mod' ofs v.sectorSz
  rw [sectorPiece, headLen, Nat.add_mul]
  congr 1 <;> omega

/-- The loop's view of `cut`: the first sector, and what is left of the request. -/
theorem cut_succ (chain : List Nat) (h : bytes ≠ 0) : cut v chain ofs bytes =
      ⟨sectorLba v chain (ofs / v.sectorSz), ofs % v.sectorSz, headLen v.sectorSz ofs bytes⟩ ::
        cut v chain (ofs + headLen v.sectorSz ofs bytes) (bytes - headLen v.sectorSz ofs bytes) := by
  have hS := sectorSz_pos v
  rw [cut, if_neg h]
  simp only
  rw [range'_succ, map_cons, sectorPiece_first]
  congr 1
  rcases last_or_next ofs hS h with ⟨hlen, hsame⟩ | ⟨hlen, hnext, hle⟩
  · rw [hsame, Nat.sub_self, hlen, Nat.sub_self]
    rfl
  have hend : ofs + headLen v.sectorSz ofs bytes + (bytes - headLen v.sectorSz ofs bytes) =
      ofs + bytes := by
    omega
  rw [cut, if_neg (by omega)]
  simp only
  rw [hend, hnext, Nat.mul_div_cancel _ hS,
    show (ofs + bytes - 1) / v.sectorSz - (ofs / v.sectorSz + 1) + 1 =
      (ofs + bytes - 1) / v.sectorSz - ofs / v.sectorSz by omega]
  apply map_congr_left
  intro k hk
  have hk := (List.mem_range'_1.mp hk).1
  have hmul := mul_le_mul_right v.sectorSz hk
  rw [sectorPiece, sectorPiece, ← hnext, hend]
  rw [← hnext] at hmul
  rw [max_eq_right hmul, max_eq_right (by omega)]

theorem bytes_cut (data : Data) (chain : List Nat) (ofs bytes : Nat) :
    (cut v chain ofs bytes).flatMap (Piece.bytes v data) =
      peek (contents v data chain) ofs bytes := by
  induction ofs, bytes using blocks_induction (sectorSz_pos v) with
  | zero ofs => rfl
  | step ofs bytes h ih =>
    rw [cut_succ chain h, flatMap_cons]
    conv_rhs => rw [← add_sub_of_le (headLen_le v.sectorSz ofs bytes), peek_add]
    congr 1
    apply map_congr_left
    intro i hi
    obtain ⟨hdiv, hmod⟩ := div_mod_head (sectorSz_pos v) (mem_range.mp hi)
    have hlt := mod_lt (ofs + i) (sectorSz_pos v)
    rw [hmod] at hlt
    rw [contents_apply, sectorBuf, hdiv, hmod, Nat.div_eq_of_lt hlt, mod_eq_of_lt hlt, Nat.add_zero]

theorem length_cut_le (chain : List Nat) (ofs bytes : Nat) :
    (cut v chain ofs bytes).length ≤ bytes := by
  induction ofs, bytes using blocks_induction (sectorSz_pos v) with
  | zero ofs => exact le_refl 0
  | step ofs bytes h ih =>
    have := headLen_pos ofs (sectorSz_pos v) h
    rw [cut_succ chain h, length_cons]
    omega

theorem len_pos_of_mem_cut (chain : List Nat) (ofs bytes : Nat) :
    ∀ p ∈ cut v chain ofs bytes, 0 < p.len ∧ p.ofs < v.sectorSz := by
  induction ofs, bytes using blocks_induction (sectorSz_pos v) with
  | zero ofs => exact nofun
  | step ofs bytes h ih =>
    rw [cut_succ chain h, forall_mem_cons]
    exact ⟨⟨headLen_pos ofs (sectorSz_pos v) h, mod_lt ofs (sectorSz_pos v)⟩, ih⟩

/-! ## The pieces that the loop makes -/

/-- One turn of the loop, with the masks and narrow types worked out. -/
theorem pieceAt_eq (clusters : List Nat) (ofs bytes : Nat) : pieceAt v clusters ofs bytes =
      match clusters[ofs / v.sectorSz % 2 ^ 32 / v.secPerCluster]? with
      | none => .error .outOfBounds
      | some c => .ok ⟨(v.lbaOf c + ofs / v.sectorSz % 2 ^ 32 % v.secPerCluster) % 2 ^ 32,
          ofs % v.sectorSz, headLen v.sectorSz ofs bytes⟩ := by
  have hle : v.sectorSz ≤ 4096 := Nat.pow_le_pow_right (by decide) v.sector_le
  have hmod := mod_lt ofs (sectorSz_pos v)
  have hofs : (ofs &&& (v.sectorSz - 1)) % 2 ^ 16 = ofs % v.sectorSz := by
    rw [sectorSz, Nat.and_two_pow_sub_one_eq_mod, ← sectorSz]
    exact mod_eq_of_lt (by omega)
  have hlen : (if bytes < (v.sectorSz - ofs % v.sectorSz) % 2 ^ 16 then bytes % 2 ^ 16
      else (v.sectorSz - ofs % v.sectorSz) % 2 ^ 16) = headLen v.sectorSz ofs bytes := by
    rw [headLen]
    split <;> omega
  have hmask : ∀ n, n &&& (v.secPerCluster - 1) = n % v.secPerCluster := fun n => by
    rw [secPerCluster, Nat.and_two_pow_sub_one_eq_mod]
  rw [pieceAt]
  simp only [hofs, hlen, hmask, Nat.shiftRight_eq_div_pow, lbaFromCluster_eq, Nat.mod_add_mod]
  rfl

theorem pieceAt_ok (hdisk : ∀ c ∈ clusters, v.lbaOf c + v.secPerCluster ≤ v.sectors)
    (h : pieceAt v clusters ofs bytes = .ok p) :
    p.lba < v.sectors ∧ p.len = headLen v.sectorSz ofs bytes := by
  rw [pieceAt_eq] at h
  split at h
  · cases h
  · next c hc =>
    cases h
    have hin := hdisk c (mem_of_getElem? hc)
    have hmod := mod_lt (ofs / v.sectorSz % 2 ^ 32) (secPerCluster_pos (v := v))
    exact ⟨lt_of_le_of_lt (mod_le _ _) (by omega), rfl⟩

/-- Whatever is requested, the pieces are on the disk, and have the requested size. -/
theorem pieces_ok (hdisk : ∀ c ∈ clusters, v.lbaOf c + v.secPerCluster ≤ v.sectors)
    (h : pieces v clusters fuel ofs bytes = .ok ps) :
    (∀ p ∈ ps, p.lba < v.sectors) ∧ (ps.map Piece.len).sum = bytes := by
  induction fuel generalizing ofs bytes ps with
  | zero =>
    rw [pieces] at h
    split at h
    · next h0 =>
      cases h
      exact ⟨forall_mem_nil _, h0.symm⟩
    · cases h
  | succ fuel ih =>
    rw [pieces] at h
    split at h
    · next h0 =>
      cases h
      exact ⟨forall_mem_nil _, h0.symm⟩
    · obtain ⟨piece, hpiece, h⟩ := bind_eq_ok h
      obtain ⟨ps', hps', h⟩ := bind_eq_ok h
      cases h
      obtain ⟨hlba, hsum⟩ := ih hps'
      obtain ⟨hin, hlen⟩ := pieceAt_ok hdisk hpiece
      have hle : piece.len ≤ bytes := by rw [hlen]; exact headLen_le _ _ _
      refine ⟨forall_mem_cons.mpr ⟨hin, hlba⟩, ?_⟩
      rw [map_cons, sum_cons]
      omega

/-- An address as the plan has it. -/
def Piece.wrap (p : Piece) : Piece := { p with lba := p.lba % 2 ^ 32 }

theorem pieceAt_inside (h0 : bytes ≠ 0)
    (hin : ofs + bytes ≤ chain.length * v.blockSize) (h32 : ofs + bytes ≤ 2 ^ 32) :
    pieceAt v chain ofs bytes = .ok (Piece.wrap
        ⟨sectorLba v chain (ofs / v.sectorSz), ofs % v.sectorSz, headLen v.sectorSz ofs bytes⟩) := by
  have hsec : ofs / v.sectorSz % 2 ^ 32 = ofs / v.sectorSz :=
    mod_eq_of_lt (lt_of_le_of_lt (div_le_self _ _) (by omega))
  have hidx : ofs / v.sectorSz / v.secPerCluster < chain.length := by
    rw [Nat.div_div_eq_div_mul, ← blockSize, Nat.div_lt_iff_lt_mul]
    · omega
    · exact Nat.mul_pos (sectorSz_pos v) secPerCluster_pos
  rw [pieceAt_eq, hsec, getElem?_eq_getElem hidx, Piece.wrap, sectorLba, getD_eq_getElem _ _ hidx]

theorem pieces_eq (hin : ofs + bytes ≤ chain.length * v.blockSize)
    (h32 : ofs + bytes ≤ 2 ^ 32) (hfuel : bytes ≤ fuel) :
    pieces v chain fuel ofs bytes = .ok ((cut v chain ofs bytes).map Piece.wrap) := by
  induction fuel generalizing ofs bytes with
  | zero =>
    obtain rfl : bytes = 0 := le_zero.mp hfuel
    rfl
  | succ fuel ih =>
    rw [pieces]
    split
    · next h0 =>
      subst h0
      rfl
    · next h0 =>
      have hpos := headLen_pos ofs (sectorSz_pos v) h0
      have hle := headLen_le v.sectorSz ofs bytes
      rw [ok_bind (pieceAt_inside h0 hin h32), cut_succ chain h0]
      have hrest : pieces v chain fuel (ofs + headLen v.sectorSz ofs bytes)
          (bytes - headLen v.sectorSz ofs bytes) = _ := ih (by omega) (by omega) (by omega)
      exact ok_bind hrest _

/-! ## Whole calls -/

theorem Piece.length_bytes (data : Data) (p : Piece) : (p.bytes v data).length = p.len :=
  peek_length _ _ _

theorem length_flatMap_bytes (data : Data) (ps : List Piece) :
    (ps.flatMap (Piece.bytes v data)).length = (ps.map Piece.len).sum := by
  rw [length_flatMap]
  congr 1
  apply map_congr_left
  intro p _
  exact p.length_bytes data

theorem sizes_eq_length (data : Data) (items : List Vec) :
    sizes items = (items.flatMap (Vec.bytes v data)).length := by
  rw [length_flatMap, sizes]
  congr 1
  apply map_congr_left
  intro x _
  exact (peek_length _ _ _).symm

theorem transfer_ok (hdisk : ∀ c ∈ clusters, v.lbaOf c + v.secPerCluster ≤ v.sectors) {data : Data}
    {m : Buf} {r : Int × Buf} (h : transfer v data clusters m bytes ofs = .ok r) :
    ∃ ps items, pieces v clusters bytes ofs bytes = .ok ps ∧
      (ps.foldl (merge v.log2SectorSz) []).length ≤ maxEntries ∧
      (∀ x ∈ items, x.Ok v) ∧ sizes items = bytes ∧
      (∀ data, items.flatMap (Vec.bytes v data) = ps.flatMap (Piece.bytes v data)) ∧
      ∀ data m, transfer v data clusters m bytes ofs = .ok (replay v data items 0 0 m) := by
  obtain ⟨p', hplan, -⟩ := bind_eq_ok h
  obtain ⟨ps, hps, hfold, hlen⟩ := (planLoop_ok_iff v clusters bytes ofs bytes capOk_empty _).mp
    ⟨p', hplan, rfl⟩
  obtain ⟨hlba, hsum⟩ := pieces_ok hdisk hps
  have hbytes : ∀ data, p'.vec.reverse.flatMap (Vec.bytes v data) =
      ps.flatMap (Piece.bytes v data) := by
    intro data
    rw [← hfold, bytes_foldl_merge]
    rfl
  refine ⟨ps, p'.vec.reverse, hps, hfold ▸ hlen, ?_, ?_, hbytes, fun data m => ?_⟩
  · intro x hx
    rw [mem_reverse, ← hfold] at hx
    exact ok_foldl_merge (forall_mem_nil _) hlba x hx
  · rw [sizes_eq_length data, hbytes, length_flatMap_bytes, hsum]
  · rw [transfer, ok_bind hplan]
    rfl

variable {f : File v}

/-- How many bytes a read may return. -/
def clipped (f : File v) (bytes ofs : Nat) : Nat := min bytes (f.size - ofs)

/-- The part of a call behind the cluster list does what is expected, for every contents of
the disk and of the destination. -/
def TransferRight (f : File v) (bytes ofs : Nat) : Prop :=
  ∀ data m, transfer v data f.chain m bytes ofs = .ok ((clipped f bytes ofs : Nat),
      poke m 0 (peek (contents v data f.chain) ofs (clipped f bytes ofs)))

/-- A request that is inside of the file, smaller than 2 GiB, at sectors with 32-bit addresses
and in at most 32769 runs. -/
structure Fits (f : File v) (bytes ofs : Nat) : Prop where
  inside : ofs + bytes ≤ f.size
  small : bytes < 2 ^ 31
  lba_lt : ∀ p ∈ cut v f.chain ofs bytes, p.lba < 2 ^ 32
  runs_le : runs v.sectorSz (cut v f.chain ofs bytes) ≤ maxEntries

theorem pieces_inside (hin : ofs + bytes ≤ f.size) :
    pieces v f.chain bytes ofs bytes = .ok ((cut v f.chain ofs bytes).map Piece.wrap) :=
  pieces_eq (le_trans hin f.size_le) (le_of_lt (lt_of_le_of_lt hin f.size_lt)) (le_refl bytes)

theorem map_wrap (h : ∀ p ∈ ps, p.lba < 2 ^ 32) : ps.map Piece.wrap = ps := by
  conv_rhs => rw [← map_id ps]
  apply map_congr_left
  intro p hp
  rw [Piece.wrap, mod_eq_of_lt (h p hp), id]

theorem int32_natCast {n : Nat} (h : n < 2 ^ 31) : int32 n = n := by
  rw [int32]
  omega

theorem replay_total (data : Data) {items : List Vec} (hok : ∀ x ∈ items, x.Ok v)
    (hlt : sizes items < 2 ^ 32) (m : Buf) : replay v data items 0 0 m =
      (int32 (sizes items : Nat), poke m 0 (items.flatMap (Vec.bytes v data))) := by
  have := replay_eq data hok 0 0 m hlt
  rwa [Int.zero_add] at this

theorem Fits.transferRight (h : Fits f bytes ofs) : TransferRight f bytes ofs := by
  intro data m
  have hlen := length_cut_le (v := v) f.chain ofs bytes
  have hpieces := pieces_inside h.inside
  rw [map_wrap h.lba_lt] at hpieces
  obtain ⟨p', hplan, -⟩ := (planLoop_ok_iff v f.chain bytes ofs bytes capOk_empty _).mpr
    ⟨_, hpieces, rfl, by
      rw [show Plan.empty.vec = [] from rfl, length_foldl_merge v (lt_of_le_of_lt hlen h.small)]
      exact h.runs_le⟩
  obtain ⟨ps, items, hps, -, hok, hsize, hbytes, htransfer⟩ :=
    transfer_ok f.on_disk (show transfer v data f.chain m bytes ofs = .ok _ from ok_bind hplan _)
  cases hpieces.symm.trans hps
  have hclip : clipped f bytes ofs = bytes := by
    have := h.inside
    rw [clipped]
    omega
  have hsmall := h.small
  rw [htransfer, replay_total data hok (by omega), hbytes, bytes_cut, hsize, hclip,
    int32_natCast hsmall]

/-- A request is not clipped: all of it is stored. -/
theorem TransferRight.bytes_le (h : TransferRight f bytes ofs) : bytes ≤ clipped f bytes ofs := by
  obtain ⟨ps, items, -, -, hok, hsize, -, htransfer⟩ :=
    transfer_ok f.on_disk (h (fun _ _ => 1) fun _ => 0)
  have hres := congrArg snd (ok.inj
    ((htransfer (fun _ _ => 1) fun _ => 0).symm.trans (h (fun _ _ => 1) fun _ => 0)))
  simp only at hres
  by_contra hlt
  have hclip : clipped f bytes ofs < 2 ^ 32 := by
    have := f.size_lt
    rw [clipped]
    omega
  have hone : (replay v (fun _ _ => 1) items 0 0 fun _ => 0).2 (clipped f bytes ofs) = 1 :=
    replay_stores (fun _ _ => rfl) hok 0 0 (.inr (by omega))
  rw [hres, poke, if_neg (by rw [peek_length]; omega)] at hone
  exact absurd hone (by decide)

theorem eq_of_flatMap_eq {α β : Type} {g g' : α → List β} {l : List α}
    (hlen : ∀ a ∈ l, (g a).length = (g' a).length) (h : l.flatMap g = l.flatMap g') :
    ∀ a ∈ l, g a = g' a := by
  induction l with
  | nil => exact nofun
  | cons a l ih =>
    rw [forall_mem_cons] at hlen ⊢
    obtain ⟨hhead, htail⟩ := append_inj h hlen.1
    exact ⟨hhead, ih hlen.2 htail⟩

theorem head_bytes (data : Data) (hlen : 0 < p.len) (hofs : p.ofs < v.sectorSz) :
    (p.bytes v data).head? = some (data p.lba p.ofs) := by
  obtain ⟨n, hn⟩ : ∃ n, p.len = n + 1 := ⟨p.len - 1, by omega⟩
  rw [Piece.bytes, hn, peek, range_succ_eq_map, map_cons, head?_cons,
    sectorBuf, Nat.add_zero, Nat.div_eq_of_lt hofs, mod_eq_of_lt hofs, Nat.add_zero]

/-- A sector whose address does not fit would be taken for another one. -/
theorem lba_lt_of_bytes (hpos : ∀ p ∈ ps, 0 < p.len ∧ p.ofs < v.sectorSz)
    (h : ∀ data, (ps.map Piece.wrap).flatMap (Piece.bytes v data) = ps.flatMap (Piece.bytes v data))
    : ∀ p ∈ ps, p.lba < 2 ^ 32 := by
  intro p hp
  obtain ⟨hlen, hofs⟩ := hpos p hp
  have heq := h fun lba _ => if lba = p.lba then 1 else 0
  rw [flatMap_map] at heq
  have hparts := eq_of_flatMap_eq (fun q _ => by
    rw [Piece.length_bytes, Piece.length_bytes, Piece.wrap]) heq p hp
  have hp' := congrArg List.head? hparts
  rw [head_bytes _ hlen hofs, head_bytes (p := p.wrap) _ hlen hofs, if_pos rfl] at hp'
  by_contra hge
  have hne : p.wrap.lba ≠ p.lba := by
    rw [Piece.wrap]
    simp only
    omega
  rw [if_neg hne] at hp'
  exact absurd hp' (by decide)

theorem TransferRight.fits (h : TransferRight f bytes ofs) (h0 : bytes ≠ 0) : Fits f bytes ofs := by
  have hclip : clipped f bytes ofs = bytes :=
    le_antisymm (min_le_left _ _) h.bytes_le
  have hin : ofs + bytes ≤ f.size := by
    rw [clipped] at hclip
    omega
  have hlt := f.size_lt
  obtain ⟨ps, items, hps, hmax, hok, hsize, hbytes, htransfer⟩ :=
    transfer_ok f.on_disk (h (fun _ _ => 0) fun _ => 0)
  obtain rfl : (cut v f.chain ofs bytes).map Piece.wrap = ps :=
    ok.inj ((pieces_inside hin).symm.trans hps)
  have hres : ∀ data m, (int32 bytes, poke m 0 (((cut v f.chain ofs bytes).map
      Piece.wrap).flatMap (Piece.bytes v data))) =
        ((bytes : Int), poke m 0 (peek (contents v data f.chain) ofs bytes)) := by
    intro data m
    have := (htransfer data m).symm.trans (h data m)
    rw [replay_total data hok (by omega), hbytes, hsize, hclip] at this
    exact ok.inj this
  have hsmall : bytes < 2 ^ 31 := by
    have := congrArg fst (hres (fun _ _ => 0) fun _ => 0)
    simp only [int32] at this
    omega
  have hlba : ∀ p ∈ cut v f.chain ofs bytes, p.lba < 2 ^ 32 := by
    apply lba_lt_of_bytes (len_pos_of_mem_cut f.chain ofs bytes)
    intro data
    have heq := congrArg snd (hres data fun _ => 0)
    rw [bytes_cut]
    refine poke_inj ?_ heq
    rw [length_flatMap_bytes, (pieces_ok f.on_disk hps).2, peek_length]
  rw [map_wrap hlba] at hmax
  have hlen := length_cut_le (v := v) f.chain ofs bytes
  rw [length_foldl_merge v (by omega)] at hmax
  exact ⟨hin, hsmall, hlba, hmax⟩

/-- `fat32_boot_pread` returns the bytes of the file, clipped at its size, and leaves a valid
handle. -/
def Right (f : File v) (h : Handle v f) (bytes ofs : Nat) : Prop :=
  ∀ data m, ∃ h' : Handle v f, pread v data f.start h.st m bytes ofs =
    .ok ((clipped f bytes ofs : Nat),
      poke m 0 (peek (contents v data f.chain) ofs (clipped f bytes ofs)), h'.st)

theorem right_iff_transferRight (h : Handle v f) :
    Right f h bytes ofs ↔ Starts f h ∧ TransferRight f bytes ofs := by
  obtain ⟨h', hpread⟩ := pread_eq f h
  constructor
  · intro hright
    have hstarts : Starts f h := by
      by_contra hno
      obtain ⟨h'', hr⟩ := hright (fun _ _ => 0) fun _ => 0
      rw [(hpread _ _ bytes ofs).2 hno] at hr
      have := congrArg fst (ok.inj hr)
      omega
    refine ⟨hstarts, fun data m => ?_⟩
    obtain ⟨h'', hr⟩ := hright data m
    rw [(hpread data m bytes ofs).1 hstarts] at hr
    cases htr : transfer v data f.chain m bytes ofs with
    | error e =>
      rw [htr] at hr
      cases hr
    | ok r =>
      rw [htr] at hr
      have hr := ok.inj hr
      have h1 := congrArg fst hr
      have h2 := congrArg (fun x => x.2.1) hr
      exact congrArg ok (Prod.ext h1 h2)
  · rintro ⟨hstarts, htransfer⟩ data m
    refine ⟨h', ?_⟩
    rw [(hpread data m bytes ofs).1 hstarts, htransfer data m]
    rfl

theorem pread_right_iff (v : Volume) (f : File v) (h : Handle v f) (bytes ofs : Nat) :
    Right f h bytes ofs ↔ Starts f h ∧ (bytes = 0 ∨ Fits f bytes ofs) := by
  rw [right_iff_transferRight]
  refine and_congr_right fun _ => ⟨fun htransfer => ?_, ?_⟩
  · by_cases h0 : bytes = 0
    · exact .inl h0
    · exact .inr (htransfer.fits h0)
  · rintro (rfl | hfits)
    · exact fun _ _ => rfl
    · exact hfits.transferRight

end

/-! ## A read beyond the end -/

/-- 1000 sectors of 512 bytes, one sector for a cluster, one cluster in use. -/
def smallVolume : Volume where
  log2SectorSz := 9
  log2SecPerCluster := 0
  firstFatLba := 32
  clusterBeginLba := 100
  sectors := 1000
  fat c := if c = 2 then 0x0FFFFFFF else 0
  sector_ge := by decide
  sector_le := by decide
  cluster_le := by decide
  fat_pos := by decide
  sectors_lt := by decide

def smallFile : File smallVolume where
  chain := [2]
  size := 5
  linked := .inr ⟨⟨by decide, by decide⟩, by decide⟩
  size_le := by decide
  size_lt := by decide
  on_disk := by decide
  fat_on_disk := by decide

def smallHandle : Handle smallVolume smallFile := ⟨⟨none, 0, fun _ => 0⟩, .inl rfl, bufOk_initial _⟩

/-- Ten bytes are requested from a file of five, and ten are stored. -/
theorem read_beyond_end :
    (pread smallVolume (fun _ _ => 7) smallFile.start smallHandle.st (fun _ => 0) 10 0).map
        (fun r => (r.1, peek r.2.1 0 12)) = .ok (10, [7, 7, 7, 7, 7, 7, 7, 7, 7, 7, 0, 0]) ∧
      clipped smallFile 10 0 = 5 ∧ ¬ Right smallFile smallHandle 10 0 := by
  have hread : (pread smallVolume (fun _ _ => 7) smallFile.start smallHandle.st (fun _ => 0) 10
      0).map (fun r => (r.1, peek r.2.1 0 12)) =
        .ok (10, [7, 7, 7, 7, 7, 7, 7, 7, 7, 7, 0, 0]) := by decide +kernel
  refine ⟨hread, rfl, fun hright => ?_⟩
  obtain ⟨h', hr⟩ := hright (fun _ _ => 7) fun _ => 0
  rw [hr] at hread
  have hcount : ((clipped smallFile 10 0 : Nat) : Int) = 10 :=
    congrArg fst (ok.inj hread)
  exact absurd hcount (by decide)

end Dgos.L3.BootFat32
