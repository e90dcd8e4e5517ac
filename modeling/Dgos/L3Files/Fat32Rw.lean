import Dgos.Core.Blocks
import Dgos.L3Files.Fat32Seek

/-!
# What `internal_rw` reads and writes

The loop moves bytes between the buffer and the places it computes, `codePos`; the bytes of the
file are at `truePos`. `Reach` says that a request can be served without an access outside of
the FAT or of the data area.

Results:
* `rwLoop_eq`, `rwLoop_error`: a turn-by-turn request comes down to `Reach` and to byte moves.
* `reads_right_iff`: when a sequence of reads on one handle returns the bytes of the file.
* `write_right_iff`: when a write stores all its bytes. The loop that serves reads ends at the
  file size, and so no write extends a file.
-/
namespace Dgos.L3.Fat32

open List Prod Nat Except Dirent
open Nat (add_sub_of_le lt_succ_of_le mod_lt)

/-! ## Moving bytes -/

/-- One byte between the mapped volume at `p` and the buffer at `q`. -/
def moveByte (read : Bool) (p q : Nat) (m : Buf × Buf) : Buf × Buf :=
  if read then (m.1, fun i => if i = q then m.1 p else m.2 i)
  else (fun i => if i = p then m.2 q else m.1 i, m.2)

/-- The bytes at `pos 0`, `pos 1`, ... and at `q`, `q + 1`, ... -/
def moves (read : Bool) (pos : Nat → Nat) (q : Nat) : Nat → Buf × Buf → Buf × Buf
  | 0, m => m
  | n + 1, m => moveByte read (pos n) (q + n) (moves read pos q n m)

section Moves

variable {read : Bool} {pos pos' : Nat → Nat} {q : Nat}

theorem moves_congr {n : Nat} (h : ∀ i < n, pos i = pos' i) (m : Buf × Buf) :
    moves read pos q n m = moves read pos' q n m := by
  induction n with
  | zero => rfl
  | succ n ih =>
    rw [moves, moves, h n (lt_succ_self n), ih fun i hi => h i (lt_succ_of_lt hi)]

theorem moves_add (read : Bool) (pos : Nat → Nat) (q n n' : Nat) (m : Buf × Buf) :
    moves read pos q (n + n') m =
      moves read (fun i => pos (n + i)) (q + n) n' (moves read pos q n m) := by
  induction n' with
  | zero => rfl
  | succ n' ih => rw [← add_assoc, moves, ih, moves, add_assoc]

theorem moves_read (n : Nat) (m : Buf × Buf) :
    moves true pos q n m = (m.1, poke m.2 q ((List.range n).map fun i => m.1 (pos i))) := by
  induction n with
  | zero => simp [moves]
  | succ n ih =>
    rw [moves, ih, moveByte, if_pos rfl, range_succ, map_append, ← poke_poke_append]
    congr 1
    funext i
    rw [poke]
    by_cases hi : i = q + n
    · simp [hi]
    · rw [if_neg hi, if_neg (by simp; omega)]

theorem moves_write_snd (pos : Nat → Nat) (q n : Nat) (m : Buf × Buf) :
    (moves false pos q n m).2 = m.2 := by
  induction n with
  | zero => rfl
  | succ n ih =>
    exact ih

/-- What a write leaves at a place is one of the bytes moved there, or what was there. -/
theorem moves_write_cases (pos : Nat → Nat) (q n : Nat) (m : Buf × Buf) (p : Nat) :
    (∃ i < n, pos i = p ∧ (moves false pos q n m).1 p = m.2 (q + i)) ∨
      ((∀ i < n, pos i ≠ p) ∧ (moves false pos q n m).1 p = m.1 p) := by
  induction n with
  | zero => exact .inr ⟨nofun, rfl⟩
  | succ n ih =>
    have hbuf := moves_write_snd pos q n m
    rw [moves, moveByte, if_neg nofun]
    simp only
    by_cases hp : p = pos n
    · exact .inl ⟨n, lt_succ_self n, hp.symm, by rw [if_pos hp, hbuf]⟩
    rw [if_neg hp]
    rcases ih with ⟨i, hi, hpi, hval⟩ | ⟨hno, hval⟩
    · exact .inl ⟨i, lt_succ_of_lt hi, hpi, hval⟩
    · refine .inr ⟨fun i hi => ?_, hval⟩
      rcases Nat.lt_succ_iff_lt_or_eq.mp hi with hlt | rfl
      · exact hno i hlt
      · exact fun heq => hp heq.symm

end Moves

theorem copy_moves (read : Bool) (p q : Nat) (dev io : Buf) (n : Nat) :
    moves read (fun i => p + i) q n (dev, io) =
      if read then (dev, poke io q (peek dev p n)) else (poke dev p (peek io q n), io) := by
  cases read with
  | true => exact moves_read n (dev, io)
  | false =>
    rw [if_neg nofun]
    refine Prod.ext (funext fun i => ?_) (moves_write_snd _ q n (dev, io))
    simp only [poke, peek_length]
    rcases moves_write_cases (fun i => p + i) q n (dev, io) i with
      ⟨j, hj, rfl, hval⟩ | ⟨hno, hval⟩
    · rw [hval]
      simp [peek, hj]
    · rw [hval, if_neg]
      rintro ⟨hle, hlt⟩
      exact hno (i - p) (by omega) (by omega)

/-! ## Places of bytes -/

section

variable {v : Volume} {fat : Nat → Nat}

/-- Where the byte at an offset of the file is. -/
def truePos (f : File v fat) (o : Nat) : Nat :=
  clusterPos v (f.chain.getD (o / v.blockSize) 0) + o % v.blockSize

/-- Where the code looks for it. -/
def codePos (f : File v fat) (o : Nat) : Nat :=
  match offsetofCluster v (raw f (o / v.blockSize)) with
  | .ok p => (p + o % v.blockSize) % 2 ^ 64
  | .error _ => 0

/-- The bytes of a file. -/
def contents (f : File v fat) (dev : Buf) : Buf :=
  Fat.contents f.chain v.blockSize fun c o => dev (clusterPos v c + o)

theorem contents_apply (f : File v fat) (dev : Buf) (i : Nat) :
    contents f dev i = dev (truePos f i) := rfl

variable {f : File v fat} {offset n s i k fuel size result cachedEnd : Nat} {st : St} {io : Buf}

theorem inData_iff {p : Nat} :
    v.inData p n = true ↔ v.dataStart ≤ p ∧ p + n ≤ v.dataStart + v.clusters * v.blockSize :=
  decide_eq_true_iff

theorem dataEnd_lt : v.dataStart + v.clusters * v.blockSize < 2 ^ 63 := by
  have hD := dataStart_lt v
  have hle : v.clusters * v.blockSize ≤ 0x0FFFFFF5 * 2 ^ 19 :=
    Nat.mul_le_mul v.clusters_le (blockSize_le v)
  omega

section

variable (h : offset / v.blockSize < f.chain.length)
include h

theorem codePos_eq : ∃ p, offsetofCluster v (raw f (offset / v.blockSize)) = .ok p ∧
      ∀ o, o / v.blockSize = offset / v.blockSize →
        codePos f o = (p + o % v.blockSize) % 2 ^ 64 := by
  obtain ⟨p, hp, -⟩ := offsetofCluster_eq v (isCluster_getD h).1 (raw_lt h) (raw_mod h)
  refine ⟨p, hp, fun o ho => ?_⟩
  rw [codePos, ho, hp]

theorem codePos_eq_iff :
    codePos f offset = truePos f offset ↔ raw f (offset / v.blockSize) < 2 ^ 28 ∧ Low v := by
  obtain ⟨p, hp, hiff⟩ := offsetofCluster_right_iff v (isCluster_getD h).1 (raw_lt h) (raw_mod h)
    (mod_lt offset (blockSize_pos v))
  have hmod := raw_mod h
  rw [codePos, hp, truePos, hiff]
  exact and_congr_left' (by omega)

theorem inData_truePos (hn : offset % v.blockSize + n ≤ v.blockSize) :
    v.inData (truePos f offset) n = true := by
  have hge := (isCluster_getD h).1
  have hlt := f.in_volume _ (getD_mem h)
  have hmul : (f.chain.getD (offset / v.blockSize) 0 - 2 + 1) * v.blockSize ≤
      v.clusters * v.blockSize := mul_le_mul_right _ (by omega)
  rw [add_mul] at hmul
  rw [inData_iff, truePos, clusterPos]
  omega

theorem codePos_add (hdata : v.inData (codePos f offset) (headLen v.blockSize offset s) = true)
    (hi : i < headLen v.blockSize offset s) : codePos f (offset + i) = codePos f offset + i := by
  obtain ⟨hdiv, hmod⟩ := div_mod_head (blockSize_pos v) hi
  obtain ⟨p, -, hpos⟩ := codePos_eq h
  have hend := dataEnd_lt (v := v)
  have hin := inData_iff.mp hdata
  rw [hpos offset rfl] at hin ⊢
  rw [hpos _ hdiv]
  omega

end

/-! ## One turn -/

theorem target_eq (hat : At f st (offset / v.blockSize)) (hofs : offset < f.size) (hs : s ≠ 0) :
    target v st ((offset / v.blockSize + 1) * v.blockSize) offset s =
      if v.inData (codePos f offset) (headLen v.blockSize offset s) then
        .ok (codePos f offset, headLen v.blockSize offset s)
      else .error .outOfBounds := by
  have hb := blockSize_pos v
  have hlen := div_blockSize_lt_length hofs
  have hdiv := div_add_mod' offset v.blockSize
  have hmod := mod_lt offset hb
  have hsize := f.size_lt
  have havail : (if offset < (offset / v.blockSize + 1) * v.blockSize then
      (offset / v.blockSize + 1) * v.blockSize - offset else 0) =
        v.blockSize - offset % v.blockSize := by
    rw [add_mul, if_pos (by omega)]
    omega
  have hmin : (if s < v.blockSize - offset % v.blockSize then s
      else v.blockSize - offset % v.blockSize) = headLen v.blockSize offset s := by
    rw [headLen]
    split <;> omega
  obtain ⟨p, hp, hpos⟩ := codePos_eq hlen
  have hdisk : (p + offset + (2 ^ 64 - st.cachedOffset)) % 2 ^ 64 = codePos f offset := by
    rw [hat.cachedOffset, hpos offset rfl]
    omega
  have hne : headLen v.blockSize offset s ≠ 0 := ne_of_gt (headLen_pos offset hb hs)
  rw [target, havail]
  rw [if_neg (by omega), hmin, hat.cachedCluster, ok_bind hp, hdisk]
  simp only [hne, false_or]
  rfl

/-- What a write does to a directory entry, apart from the size. -/
def stamp (d : Dirent) (now : Nat × Nat) : Dirent :=
  { d with modifiedDate := now.1, modifiedTime := now.2, attr := d.attr ||| attrArch }

theorem touch_eq_stamp {d : Dirent} {endOfs : Nat} (h : endOfs ≤ d.size) (now : Nat × Nat) :
    touch d endOfs now = stamp d now := by
  rw [touch, if_neg (by omega), stamp]

theorem isDirectory_stamp (d : Dirent) (now : Nat × Nat) :
    (stamp d now).isDirectory = d.isDirectory := by
  rw [isDirectory, isDirectory, stamp, and_or_distrib_right,
    show attrArch &&& attrDir = 0 from rfl, or_zero]

variable (read : Bool) (now : Nat × Nat)

/-- The state when the loop has come to the `k`-th cluster. -/
def settle (f : File v fat) (st : St) (k : Nat) (dev : Buf) : St :=
  { moveTo f st k with
    dev := dev
    dirent := if read then st.dirent else stamp st.dirent now
    dirty := if read then st.dirty else true }

theorem settle_settle (st : St) (k k' : Nat) (dev dev' : Buf) :
    settle read now f (settle read now f st k dev) k' dev' = settle read now f st k' dev' := by
  cases read
  · simp [settle, moveTo, stamp]
  · rfl

theorem at_settle (st : St) (k : Nat) (dev : Buf) : At f (settle read now f st k dev) k := rfl

variable {read now}

theorem Holds.settle (h : Holds f st) (k : Nat) (dev : Buf) :
    Holds f (settle read now f st k dev) := by
  cases read
  · exact ⟨h.fat_eq, h.start_eq, h.size_eq, (isDirectory_stamp _ _).trans h.not_dir⟩
  · exact ⟨h.fat_eq, h.start_eq, h.size_eq, h.not_dir⟩

theorem copy_eq (h : Holds f st) (k : Nat) (io : Buf) {p q : Nat} (hle : offset + n ≤ f.size) :
    copy read now (moveTo f st k) io p n offset q =
      (settle read now f st k (moves read (fun i => p + i) q n (st.dev, io)).1,
        (moves read (fun i => p + i) q n (st.dev, io)).2) := by
  rw [copy_moves]
  cases read
  · rw [copy, touch_eq_stamp (by rw [(h.moveTo k).size_eq]; exact hle)]
    rfl
  · rfl

/-- The size is clamped before anything else is done. -/
theorem rwLoop_clamp (h : Holds f st) (hofs : offset < f.size) (cachedEnd : Nat) :
    rwLoop v read now (fuel + 1) st io cachedEnd offset size result =
      rwLoop v read now (fuel + 1) st io cachedEnd offset (min size (f.size - offset)) result := by
  rw [rwLoop, rwLoop, h.size_eq]
  have hclamp : (if f.size - offset < size then f.size - offset else size) =
      if f.size - offset < min size (f.size - offset) then f.size - offset
      else min size (f.size - offset) := by
    split <;> split <;> omega
  have hzero : size = 0 ↔ min size (f.size - offset) = 0 := by omega
  simp only [hclamp, hzero]

/-! ## Whole requests -/

/-- The turns of a request have clean entries to follow and are in the data area. -/
inductive Reach (f : File v fat) : Nat → Nat → Prop
  | done (offset : Nat) : Reach f offset 0
  | turn {offset s : Nat} : s ≠ 0 → Clean f (offset / v.blockSize) →
      v.inData (codePos f offset) (headLen v.blockSize offset s) = true →
      Reach f (offset + headLen v.blockSize offset s) (s - headLen v.blockSize offset s) →
      Reach f offset s

/-- The block with the last byte of a request. -/
def lastBlock (v : Volume) (offset s : Nat) : Nat := (offset + s - 1) / v.blockSize

theorem lastBlock_tail (s : Nat) : lastBlock v (offset + headLen v.blockSize offset s)
    (s - headLen v.blockSize offset s) = lastBlock v offset s := by
  rw [lastBlock, add_assoc, add_sub_of_le (headLen_le _ _ _), lastBlock]

theorem lastBlock_lt (hs : s ≠ 0) (hin : offset + s ≤ f.size) :
    lastBlock v offset s < f.chain.length :=
  div_blockSize_lt_length (by omega)

section Loop

variable (h : Holds f st) (hat : At f st k) (hk : k < f.chain.length)
include h hat hk

section

variable (hs : size ≠ 0) (hin : offset + size ≤ f.size)
include hs hin

theorem turn_ok (hclean : Clean f (offset / v.blockSize))
    (hdata : v.inData (codePos f offset) (headLen v.blockSize offset size) = true) :
    rwLoop v read now (fuel + 1) st io ((k + 1) * v.blockSize) offset size result =
      rwLoop v read now fuel
        (settle read now f st (offset / v.blockSize) (moves read (fun i => codePos f (offset + i))
          result (headLen v.blockSize offset size) (st.dev, io)).1)
        (moves read (fun i => codePos f (offset + i)) result (headLen v.blockSize offset size)
          (st.dev, io)).2
        ((offset / v.blockSize + 1) * v.blockSize) (offset + headLen v.blockSize offset size)
        (size - headLen v.blockSize offset size) (result + headLen v.blockSize offset size) := by
  have hofs : offset < f.size := by omega
  have hle := headLen_le v.blockSize offset size
  have hne := ne_of_gt (headLen_pos offset (blockSize_pos v) hs)
  have hwithin := (isWithinSize_iff h).mpr hofs
  rw [rwLoop, if_neg (by simp [hs, hwithin]), h.size_eq]
  simp only
  rw [if_neg (by omega), ok_bind (seek_eq read h hat hk hofs hclean)]
  rw [target_eq (at_moveTo st _) hofs hs, if_pos hdata, ok_bind rfl]
  rw [copy_eq h _ io (by omega), if_neg hne]
  rw [moves_congr fun i hi => codePos_add (div_blockSize_lt_length hofs) hdata hi]

theorem turn_error (hbefore : Clean f k) (hno : ¬ (Clean f (offset / v.blockSize) ∧
      v.inData (codePos f offset) (headLen v.blockSize offset size) = true)) :
    rwLoop v read now (fuel + 1) st io ((k + 1) * v.blockSize) offset size result =
      .error .outOfBounds := by
  have hofs : offset < f.size := by omega
  have hwithin := (isWithinSize_iff h).mpr hofs
  rw [rwLoop, if_neg (by simp [hs, hwithin]), h.size_eq]
  simp only
  rw [if_neg (by omega)]
  by_cases hclean : Clean f (offset / v.blockSize)
  · rw [ok_bind (seek_eq read h hat hk hofs hclean)]
    rw [target_eq (at_moveTo st _) hofs hs, if_neg fun hdata => hno ⟨hclean, hdata⟩]
    rfl
  · rw [seek_reserved read h hat hk hofs hbefore hclean]
    rfl

end

variable (hin : offset + s ≤ f.size) (hfuel : s < fuel)
include hin hfuel

/-- A request that can be served moves its bytes, from and to where the code looks for them. -/
theorem rwLoop_eq (hreach : Reach f offset s) (hs : s ≠ 0) :
    rwLoop v read now fuel st io ((k + 1) * v.blockSize) offset s result =
      .ok (result + s, (moves read (fun i => codePos f (offset + i)) result s (st.dev, io)).2,
        settle read now f st (lastBlock v offset s)
          (moves read (fun i => codePos f (offset + i)) result s (st.dev, io)).1) := by
  induction hreach generalizing st k fuel result io with
  | done offset => exact absurd rfl hs
  | @turn offset s _ hclean hdata hrest ih =>
    obtain _ | fuel := fuel
    · omega
    have hpos := headLen_pos offset (blockSize_pos v) hs
    rw [turn_ok h hat hk hs hin hclean hdata]
    rcases last_or_next offset (blockSize_pos v) hs with ⟨hlen, hsame⟩ | ⟨hlen, hnext, -⟩
    · obtain _ | fuel := fuel
      · omega
      rw [hlen, Nat.sub_self, rwLoop, if_pos (.inl rfl), lastBlock, hsame]
    · have hmoves := moves_add read (fun i => codePos f (offset + i)) result
        (headLen v.blockSize offset s) (s - headLen v.blockSize offset s) (st.dev, io)
      rw [add_sub_of_le (headLen_le _ _ _)] at hmoves
      rw [ih (h.settle _ _) (at_settle read now st _ _) (div_blockSize_lt_length (by omega))
        (by omega) (by omega) (by omega), settle_settle, lastBlock_tail, hmoves, add_assoc,
        add_sub_of_le (headLen_le _ _ _)]
      simp only [add_assoc]
      rfl

/-- Any other request ends with an access outside of the FAT or of the data area. -/
theorem rwLoop_error (hno : ¬ Reach f offset s) (hbefore : Clean f k) :
    rwLoop v read now fuel st io ((k + 1) * v.blockSize) offset s result = .error .outOfBounds := by
  induction offset, s using blocks_induction (blockSize_pos v) generalizing st k fuel result io with
  | zero offset => exact absurd (.done offset) hno
  | step offset s hs ih =>
    obtain _ | fuel := fuel
    · omega
    have hpos := headLen_pos offset (blockSize_pos v) hs
    have hle := headLen_le v.blockSize offset s
    by_cases hturn : Clean f (offset / v.blockSize) ∧
        v.inData (codePos f offset) (headLen v.blockSize offset s) = true
    · obtain ⟨hclean, hdata⟩ := hturn
      rw [turn_ok h hat hk hs hin hclean hdata]
      exact ih (h.settle _ _) (at_settle read now st _ _) (div_blockSize_lt_length (by omega))
        (by omega) (by omega) (fun hrest => hno (.turn hs hclean hdata hrest)) hclean
    · exact turn_error h hat hk hs hin hbefore hturn

end Loop

/-- The last block is reached through clean entries. -/
theorem Reach.clean (h : Reach f offset s) (hs : s ≠ 0) : Clean f (lastBlock v offset s) := by
  induction h with
  | done offset => exact absurd rfl hs
  | @turn offset s _ hclean _ _ ih =>
    rcases last_or_next offset (blockSize_pos v) hs with ⟨-, hsame⟩ | ⟨hlen, -, -⟩
    · rw [lastBlock, hsame]
      exact hclean
    · have := ih (by omega)
      rwa [lastBlock_tail] at this

theorem reach_of_clean (hlow : Low v) (hin : offset + s ≤ f.size)
    (hclean : Clean f (lastBlock v offset s + 1)) : Reach f offset s := by
  induction offset, s using blocks_induction (blockSize_pos v) with
  | zero offset => exact .done offset
  | step offset s hs ih =>
    have hofs : offset < f.size := by omega
    have hlen := div_blockSize_lt_length hofs
    have hle := headLen_le v.blockSize offset s
    have hmod := mod_lt offset (blockSize_pos v)
    have hrest := headLen_le_rest v.blockSize offset s
    have hfirst : offset / v.blockSize ≤ lastBlock v offset s :=
      Nat.div_le_div_right (by omega)
    have hpos : codePos f offset = truePos f offset :=
      (codePos_eq_iff hlen).mpr ⟨hclean _ (lt_succ_of_le hfirst), hlow⟩
    refine .turn hs (hclean.mono (le_succ_of_le hfirst)) ?_ (ih (by omega) ?_)
    · rw [hpos]
      exact inData_truePos hlen (by omega)
    · rwa [lastBlock_tail]

/-! ## Handles -/

/-- An open file. The cached position is at one of its clusters, reached through clean entries. -/
structure Handle (f : File v fat) where
  st : St
  holds : Holds f st
  cached : f.chain ≠ [] → ∃ k < f.chain.length, At f st k ∧ Clean f (k + 1)

/-- The same handle on a volume with other data. -/
def Handle.setDev (h : Handle f) (dev : Buf) : Handle f where
  st := { h.st with dev := dev }
  holds := ⟨h.holds.fat_eq, h.holds.start_eq, h.holds.size_eq, h.holds.not_dir⟩
  cached hne := by
    obtain ⟨k, hk, hat, hclean⟩ := h.cached hne
    refine ⟨k, hk, ?_, hclean⟩
    rw [At, moveTo, ← hat.cachedOffset, ← hat.cachedCluster]

theorem clean_one (hlen : 0 < f.chain.length) : Clean f 1 := by
  intro k hk
  obtain rfl : k = 0 := by omega
  have := (isCluster_getD hlen).2
  rw [raw, start_eq_getD]
  omega

/-- The handle that `create_handle` makes.
mirrors kernel/fs/fat32/fat32.cc:1198-1202 -/
def Handle.opened (fat2 : Nat → Nat) (dev : Buf) (attr : Nat) (hattr : attr &&& attrDir = 0) :
    Handle f where
  st := ⟨fat, fat2, dev, ⟨f.start, f.size, attr, 0, 0⟩, 0, f.start, false⟩
  holds := ⟨rfl, rfl, rfl, by simp [Dirent.isDirectory, hattr]⟩
  cached hne := by
    have hlen := length_pos_of_ne_nil hne
    exact ⟨0, hlen, by simp [At, moveTo, raw], clean_one hlen⟩

/-- How many bytes of a request are in the file. -/
def clip (f : File v fat) (size offset : Nat) : Nat := min size (f.size - offset)

section Calls

variable (h : Handle f)

theorem internalRw_zero (hzero : clip f size offset = 0) :
    internalRw v read now h.st io size offset = .ok (0, io, h.st) := by
  rw [internalRw, rwLoop, if_pos]
  rw [isWithinSize_iff h.holds]
  rw [clip] at hzero
  omega

section

variable (hne : clip f size offset ≠ 0)
include hne

/-- The loop begins at the cached position with the clamped size. -/
theorem internalRw_start (read : Bool) (now : Nat × Nat) (io : Buf) :
    ∃ k < f.chain.length, At f h.st k ∧ Clean f (k + 1) ∧
      internalRw v read now h.st io size offset =
        rwLoop v read now (size + 1) h.st io ((k + 1) * v.blockSize) offset
          (clip f size offset) 0 := by
  have hofs : offset < f.size := by
    rw [clip] at hne
    omega
  have hchain : f.chain ≠ [] := by
    intro hnil
    have := div_blockSize_lt_length hofs
    rw [hnil] at this
    cases this
  obtain ⟨k, hk, hat, hclean⟩ := h.cached hchain
  refine ⟨k, hk, hat, hclean, ?_⟩
  have hcluster : h.st.cachedCluster ≠ 0 := by
    have := raw_ge hk
    rw [hat.cachedCluster]
    omega
  rw [internalRw, if_pos hcluster, rwLoop_clamp h.holds hofs, hat.cachedOffset, clip, add_mul,
    one_mul]

theorem clip_le_size : offset + clip f size offset ≤ f.size ∧ clip f size offset ≤ size := by
  rw [clip] at hne ⊢
  omega

theorem internalRw_eq (hreach : Reach f offset (clip f size offset)) :
    internalRw v read now h.st io size offset = .ok (clip f size offset,
        (moves read (fun i => codePos f (offset + i)) 0 (clip f size offset) (h.st.dev, io)).2,
        settle read now f h.st (lastBlock v offset (clip f size offset))
          (moves read (fun i => codePos f (offset + i)) 0 (clip f size offset)
            (h.st.dev, io)).1) := by
  obtain ⟨k, hk, hat, -, hstart⟩ := internalRw_start h hne read now io
  obtain ⟨hin, hle⟩ := clip_le_size hne
  rw [hstart, rwLoop_eq h.holds hat hk hin (lt_succ_of_le hle) hreach hne, zero_add]

theorem internalRw_error (hno : ¬ Reach f offset (clip f size offset)) :
    internalRw v read now h.st io size offset = .error .outOfBounds := by
  obtain ⟨k, hk, hat, hclean, hstart⟩ :=
    internalRw_start h hne read now io
  obtain ⟨hin, hle⟩ := clip_le_size hne
  rw [hstart, rwLoop_error h.holds hat hk hin (lt_succ_of_le hle) hno (hclean.mono (le_succ k))]

end

/-- The handle behind a request whose entries are clean. -/
def Handle.settled (read : Bool) (now : Nat × Nat) (offset s : Nat) (hs : s ≠ 0)
    (hin : offset + s ≤ f.size) (hclean : Clean f (lastBlock v offset s + 1)) (dev : Buf) :
    Handle f where
  st := settle read now f h.st (lastBlock v offset s) dev
  holds := h.holds.settle _ _
  cached _ := ⟨_, lastBlock_lt hs hin, at_settle read now h.st _ _, hclean⟩

end Calls

/-- A request that is empty, or that is served through entries without reserved bits on a volume
whose data area begins below 2 GiB. -/
def Served (f : File v fat) (offset s : Nat) : Prop :=
  s = 0 ∨ Clean f (lastBlock v offset s + 1) ∧ Low v

/-- It is enough that the last byte is looked for where it is. -/
theorem served_of_last (hs : s ≠ 0) (hin : offset + s ≤ f.size) (hreach : Reach f offset s)
    (hlast : codePos f (offset + (s - 1)) = truePos f (offset + (s - 1))) :
    Clean f (lastBlock v offset s + 1) ∧ Low v := by
  have hblock : (offset + (s - 1)) / v.blockSize = lastBlock v offset s := by
    congr 1
    omega
  have hlen := lastBlock_lt hs hin
  rw [codePos_eq_iff (by rw [hblock]; exact hlen), hblock] at hlast
  exact ⟨clean_succ.mpr ⟨hreach.clean hs, hlast.1⟩, hlast.2⟩

theorem codePos_eq_truePos (hclean : Clean f (lastBlock v offset s + 1))
    (hlow : Low v) (hin : offset + s ≤ f.size) (hi : i < s) :
    codePos f (offset + i) = truePos f (offset + i) := by
  have hle : (offset + i) / v.blockSize ≤ lastBlock v offset s := Nat.div_le_div_right (by omega)
  exact (codePos_eq_iff (div_blockSize_lt_length (by omega))).mpr
    ⟨hclean _ (lt_succ_of_le hle), hlow⟩

/-! ## Reads -/

/-- A read request: the buffer, the size and the offset. -/
structure Req where
  io : Buf
  size : Nat
  offset : Nat

/-- `read`, one request after the other. -/
def readAll (v : Volume) (now : Nat × Nat) : List Req → St → Except Err (List (Nat × Buf) × St)
  | [], st => .ok ([], st)
  | r :: rs, st => do
    let (result, io, st) ← internalRw v true now st r.io r.size r.offset
    let (results, st) ← readAll v now rs st
    return ((result, io) :: results, st)

/-- What a read should return. -/
def answer (f : File v fat) (dev : Buf) (r : Req) : Nat × Buf :=
  (clip f r.size r.offset, poke r.io 0 (peek (contents f dev) r.offset (clip f r.size r.offset)))

/-- For every contents of the volume, each read returns the bytes of the file. -/
def ReadsRight (now : Nat × Nat) (h : Handle f) (rs : List Req) : Prop :=
  ∀ dev, ∃ st', readAll v now rs (h.setDev dev).st = .ok (rs.map (answer f dev), st')

theorem read_served (now : Nat × Nat) (h : Handle f) (r : Req)
    (hserved : Served f r.offset (clip f r.size r.offset)) :
    ∃ h' : Handle f, ∀ dev, internalRw v true now (h.setDev dev).st r.io r.size r.offset =
      .ok ((answer f dev r).1, (answer f dev r).2, (h'.setDev dev).st) := by
  by_cases hzero : clip f r.size r.offset = 0
  · refine ⟨h, fun dev => ?_⟩
    rw [answer, hzero, peek_zero]
    exact internalRw_zero (h.setDev dev) hzero
  · obtain ⟨hclean, hlow⟩ := hserved.resolve_left hzero
    obtain ⟨hin, -⟩ := clip_le_size hzero
    refine ⟨h.settled true now _ _ hzero hin hclean h.st.dev, fun dev => ?_⟩
    have hcall : internalRw v true now (h.setDev dev).st r.io r.size r.offset = _ :=
      internalRw_eq (h.setDev dev) hzero (reach_of_clean hlow hin hclean)
    rw [moves_congr fun i hi => codePos_eq_truePos hclean hlow hin hi, moves_read] at hcall
    exact hcall

theorem served_of_read (now : Nat × Nat) (h : Handle f) (r : Req)
    (hright : ∀ dev, ∃ st', internalRw v true now (h.setDev dev).st r.io r.size r.offset =
      .ok ((answer f dev r).1, (answer f dev r).2, st')) :
    Served f r.offset (clip f r.size r.offset) := by
  by_cases hzero : clip f r.size r.offset = 0
  · exact .inl hzero
  right
  obtain ⟨hin, -⟩ := clip_le_size hzero
  have hreach : Reach f r.offset (clip f r.size r.offset) := by
    by_contra hno
    obtain ⟨st', heq⟩ := hright fun _ => 0
    rw [internalRw_error (h.setDev fun _ => 0) hzero hno] at heq
    cases heq
  apply served_of_last hzero hin hreach
  -- a volume that differs from others at the true place of the last byte only
  obtain ⟨st', heq⟩ := hright fun p =>
    if p = truePos f (r.offset + (clip f r.size r.offset - 1)) then 1 else 0
  rw [internalRw_eq (h.setDev _) hzero hreach, moves_read] at heq
  have hbuf := poke_inj (by simp [peek_length]) (congrArg (fun x => x.2.1) (ok.inj heq))
  have hbyte : (if codePos f (r.offset + (clip f r.size r.offset - 1)) =
      truePos f (r.offset + (clip f r.size r.offset - 1)) then 1 else 0 : UInt8) = 1 :=
    (map_inj_left.mp hbuf (clip f r.size r.offset - 1)
      (mem_range.mpr (by omega))).trans (if_pos rfl)
  by_contra hne
  rw [if_neg hne] at hbyte
  exact absurd hbyte (by decide)

/-- Reads in any number and order on one handle. -/
theorem reads_right_iff (v : Volume) (fat : Nat → Nat) (f : File v fat) (now : Nat × Nat)
    (h : Handle f) (rs : List Req) :
    ReadsRight now h rs ↔ ∀ r ∈ rs, Served f r.offset (clip f r.size r.offset) := by
  induction rs generalizing h with
  | nil => exact ⟨fun _ r hr => absurd hr not_mem_nil, fun _ dev => ⟨_, rfl⟩⟩
  | cons r rs ih =>
    rw [forall_mem_cons]
    constructor
    · intro hright
      have hserved : Served f r.offset (clip f r.size r.offset) := by
        apply served_of_read now h r
        intro dev
        obtain ⟨st', heq⟩ := hright dev
        obtain ⟨⟨result, io, st1⟩, hcall, heq⟩ := bind_eq_ok heq
        obtain ⟨⟨results, st2⟩, -, heq⟩ := bind_eq_ok heq
        have hhead := congrArg head? (congrArg fst (ok.inj heq))
        simp only [map_cons, head?_cons, Option.some.injEq] at hhead
        rw [hcall, ← hhead]
        exact ⟨st1, rfl⟩
      obtain ⟨h', hread⟩ := read_served now h r hserved
      refine ⟨hserved, (ih h').mp fun dev => ?_⟩
      obtain ⟨st', heq⟩ := hright dev
      rw [readAll, ok_bind (hread dev)] at heq
      obtain ⟨⟨results, st2⟩, hrest, heq⟩ := bind_eq_ok heq
      have htail := congrArg tail (congrArg fst (ok.inj heq))
      simp only [map_cons, tail_cons] at htail
      exact ⟨st2, by rw [hrest, htail]⟩
    · rintro ⟨hserved, hrest⟩ dev
      obtain ⟨h', hread⟩ := read_served now h r hserved
      obtain ⟨st', heq⟩ := (ih h').mpr hrest dev
      refine ⟨st', ?_⟩
      rw [readAll, ok_bind (hread dev)]
      exact ok_bind heq _

/-! ## Writes -/

/-- What a write of `size` bytes at `offset` should leave: a file `f'` with the clusters of `f`,
followed by those it needs in addition, that has the written bytes and otherwise the old ones;
no other cluster and no other entry of the FAT is changed. -/
structure Written {fat' : Nat → Nat} (f : File v fat) (f' : File v fat') (dev io : Buf)
    (size offset : Nat) (st' : St) : Prop where
  holds : Holds f' st'
  size_eq : f'.size = max f.size (offset + size)
  chain_prefix : f.chain <+: f'.chain
  chain_length : f'.chain.length = max f.chain.length ((f'.size + (v.blockSize - 1)) / v.blockSize)
  bytes : ∀ i < f'.size, contents f' st'.dev i =
    if offset ≤ i ∧ i < offset + size then io (i - offset) else contents f dev i
  others : ∀ c, 2 ≤ c → c ∉ f'.chain → st'.fat c = fat c ∧
    ∀ o < v.blockSize, st'.dev (clusterPos v c + o) = dev (clusterPos v c + o)

/-- For every contents of the volume and of the buffer, the write stores all its bytes. -/
def WriteRight (h : Handle f) (size offset : Nat) : Prop :=
  ∀ dev io now, ∃ (st' : St) (fat' : Nat → Nat) (f' : File v fat'),
    internalRw v false now (h.setDev dev).st io size offset = .ok (size, io, st') ∧
      Written f f' dev io size offset st'

theorem clusterPos_inj {c c' o o' : Nat} (hc : 2 ≤ c) (hc' : 2 ≤ c') (ho : o < v.blockSize)
    (ho' : o' < v.blockSize) (h : clusterPos v c + o = clusterPos v c' + o') : c = c' ∧ o = o' := by
  rw [clusterPos, clusterPos, add_assoc, add_assoc, add_left_cancel_iff,
    mul_comm, mul_comm (c' - 2)] at h
  have hdiv := congrArg (· / v.blockSize) h
  have hmod := congrArg (· % v.blockSize) h
  simp only [mul_add_div (blockSize_pos v), mul_add_mod, div_eq_of_lt ho,
    div_eq_of_lt ho', mod_eq_of_lt ho, mod_eq_of_lt ho'] at hdiv hmod
  exact ⟨by omega, hmod⟩

theorem truePos_inj {j : Nat} (hi : i < f.size) (hj : j < f.size)
    (h : truePos f i = truePos f j) : i = j := by
  have hi' := div_blockSize_lt_length hi
  have hj' := div_blockSize_lt_length hj
  obtain ⟨hc, ho⟩ := clusterPos_inj (isCluster_getD hi').1 (isCluster_getD hj').1
    (mod_lt i (blockSize_pos v)) (mod_lt j (blockSize_pos v)) h
  rw [getD_eq_getElem _ _ hi', getD_eq_getElem _ _ hj'] at hc
  have hblock := (linked_of_lt hi').nodup.getElem_inj_iff.mp hc
  rw [← div_add_mod' i v.blockSize, ← div_add_mod' j v.blockSize, hblock, ho]

theorem needed_le_length (f : File v fat) :
    (f.size + (v.blockSize - 1)) / v.blockSize ≤ f.chain.length := by
  have hb := blockSize_pos v
  have := f.size_le
  rw [← Nat.lt_succ_iff, Nat.div_lt_iff_lt_mul hb, Nat.succ_mul]
  omega

theorem written_inside {st' : St} (hst : Holds f st') (dev io : Buf) {size : Nat}
    (hin : offset + size ≤ f.size)
    (hdev : st'.dev = (moves false (fun i => truePos f (offset + i)) 0 size (dev, io)).1) :
    Written f f dev io size offset st' where
  holds := hst
  size_eq := by omega
  chain_prefix := prefix_rfl
  chain_length := by
    have := needed_le_length f
    omega
  bytes i hi := by
    rw [contents_apply, hdev]
    rcases moves_write_cases (fun i => truePos f (offset + i)) 0 size (dev, io)
      (truePos f i) with ⟨j, hj, hpos, hval⟩ | ⟨hno, hval⟩
    · obtain rfl : offset + j = i := truePos_inj (by omega) hi hpos
      rw [if_pos (by omega), Nat.add_sub_cancel_left]
      rw [zero_add] at hval
      exact hval
    · rw [if_neg]
      · exact hval
      · rintro ⟨hle, hlt⟩
        refine hno (i - offset) (by omega) ?_
        rw [add_sub_of_le hle]
  others c hc hmem := by
    refine ⟨by rw [hst.fat_eq], fun o ho => ?_⟩
    rw [hdev]
    rcases moves_write_cases (fun i => truePos f (offset + i)) 0 size (dev, io)
      (clusterPos v c + o) with ⟨j, hj, hpos, -⟩ | ⟨-, hval⟩
    · have hlen : (offset + j) / v.blockSize < f.chain.length :=
        div_blockSize_lt_length (by omega)
      obtain ⟨heq, -⟩ := clusterPos_inj (isCluster_getD hlen).1 hc
        (mod_lt _ (blockSize_pos v)) ho hpos
      exact absurd (heq ▸ getD_mem hlen) hmem
    · exact hval

/-- The old part of a chain says where the old bytes are. -/
theorem truePos_of_prefix {fat' : Nat → Nat} {f' : File v fat'} (hpre : f.chain <+: f'.chain)
    (hi : i < f.size) : truePos f' i = truePos f i := by
  have hlen := div_blockSize_lt_length hi
  obtain ⟨l, hl⟩ := hpre
  rw [truePos, truePos, ← hl, getD_append _ _ _ _ hlen]

theorem inside_of_writeRight (h : Handle f) {size : Nat} (hright : WriteRight h size offset)
    (hs : size ≠ 0) : offset + size ≤ f.size ∧ Clean f (lastBlock v offset size + 1) ∧ Low v := by
  obtain ⟨st0, _, _, hcall0, -⟩ := hright (fun _ => 0) (fun _ => 0) (0, 0)
  have hne : clip f size offset ≠ 0 := by
    intro hzero
    rw [internalRw_zero (h.setDev fun _ => 0) hzero] at hcall0
    exact hs (congrArg fst (ok.inj hcall0)).symm
  have hreach : Reach f offset (clip f size offset) := by
    by_contra hno
    rw [internalRw_error (h.setDev fun _ => 0) hne hno] at hcall0
    cases hcall0
  rw [internalRw_eq (h.setDev fun _ => 0) hne hreach] at hcall0
  have hclip : clip f size offset = size := congrArg fst (ok.inj hcall0)
  have hin : offset + size ≤ f.size := by
    rw [clip] at hclip
    omega
  rw [hclip] at hreach hne
  refine ⟨hin, served_of_last hs hin hreach ?_⟩
  -- a buffer in which the last byte is the only one that is not 0
  obtain ⟨st', fat', f', hcall, hwritten⟩ :=
    hright (fun _ => 0) (fun i => if i = size - 1 then 1 else 0) (0, 0)
  rw [internalRw_eq (h.setDev _) (by rw [hclip]; exact hne) (by rw [hclip]; exact hreach)] at hcall
  have hst : settle false (0, 0) f (h.setDev fun _ => 0).st _ _ = st' :=
    congrArg (fun x => x.2.2) (ok.inj hcall)
  have hbyte := hwritten.bytes (offset + (size - 1)) (by rw [hwritten.size_eq]; omega)
  rw [if_pos (by omega), Nat.add_sub_cancel_left, if_pos rfl, contents_apply,
    truePos_of_prefix hwritten.chain_prefix (by omega), ← hst, hclip] at hbyte
  rcases moves_write_cases (fun i => codePos f (offset + i)) 0 size
    ((fun _ => 0), fun i => if i = size - 1 then 1 else 0)
    (truePos f (offset + (size - 1))) with ⟨j, hj, hpos, hval⟩ | ⟨-, hval⟩
  · have hone := hval.symm.trans hbyte
    simp only [zero_add] at hone
    by_cases hlast : j = size - 1
    · rw [← hlast] at hpos ⊢
      exact hpos
    · rw [if_neg hlast] at hone
      exact absurd hone (by decide)
  · exact absurd (hval.symm.trans hbyte) (show (0 : UInt8) ≠ 1 by decide)

/-- Writes at an offset up to the end of the file. -/
theorem write_right_iff (v : Volume) (fat : Nat → Nat) (f : File v fat) (h : Handle f)
    (size offset : Nat) (hofs : offset ≤ f.size) : WriteRight h size offset ↔
      size = 0 ∨ (offset + size ≤ f.size ∧ Clean f (lastBlock v offset size + 1) ∧ Low v) := by
  by_cases hs : size = 0
  · subst hs
    exact iff_of_true (fun dev io now => ⟨_, fat, f, internalRw_zero (h.setDev dev)
      (zero_min _), written_inside (h.setDev dev).holds dev io hofs rfl⟩) (.inl rfl)
  · rw [or_iff_right hs]
    refine ⟨fun hright => inside_of_writeRight h hright hs, ?_⟩
    rintro ⟨hin, hclean, hlow⟩ dev io now
    have hclip : clip f size offset = size := by
      rw [clip]
      omega
    have hcall : internalRw v false now (h.setDev dev).st io size offset = _ :=
      internalRw_eq (h.setDev dev) (by rw [hclip]; exact hs)
        (by rw [hclip]; exact reach_of_clean hlow hin hclean)
    rw [hclip, moves_congr fun i hi => codePos_eq_truePos hclean hlow hin hi,
      moves_write_snd] at hcall
    exact ⟨_, fat, f, hcall, written_inside ((h.setDev dev).holds.settle _ _) dev io hin rfl⟩

end

/-! ## Requests that fail -/

theorem small_sector_le : 9 ≤ 12 := by decide

theorem small_block_le : 0 ≤ 7 := by decide

/-- 70000 clusters of one sector of 512 bytes. -/
def smallVolume : Volume where
  sectorShift := 9
  blockShift := 0
  reservedSectors := 32
  secPerFat := 600
  partSt := 2048
  partLen := 71232
  clusters := 70000
  sector_ge := le_rfl
  sector_le := small_sector_le
  block_le := small_block_le
  reserved_lt := by decide
  fat_le := by decide
  fat_ge := by decide
  clusters_le := by decide
  in_partition := by decide

/-- Two clusters are in use, 2 and 3. The entry of cluster 2 has one of the reserved bits. -/
def smallFat (c : Nat) : Nat :=
  if c = 0 then 0x0FFFFFF8 else if c = 1 then 0x0FFFFFFF
  else if c = 2 then 0x10000003 else if c = 3 then 0x0FFFFFFF else 0

def longFile : File smallVolume smallFat where
  chain := [2, 3]
  size := 600
  linked := .inr ⟨⟨by decide, by decide⟩, by decide, ⟨by decide, by decide⟩, by decide⟩
  size_le := by decide
  size_lt := by decide
  entry_lt := by decide
  in_volume := by decide

theorem short_size_lt : 5 < 2 ^ 32 := by decide

def shortFile : File smallVolume smallFat where
  chain := [3]
  size := 5
  linked := .inr ⟨⟨by decide, by decide⟩, by decide⟩
  size_le := by decide
  size_lt := short_size_lt
  entry_lt := by decide
  in_volume := by decide

/-- A byte of the second cluster is requested; the code looks for cluster `0x10000003`. -/
theorem reserved_bits_followed : readAll smallVolume (0, 0) [⟨fun _ => 0, 1, 512⟩]
        ((Handle.opened smallFat (fun _ => 0) 0 rfl : Handle longFile).setDev fun _ => 7).st =
      .error .outOfBounds ∧
      clip longFile 1 512 = 1 ∧
      ¬ ReadsRight (0, 0) (Handle.opened smallFat (fun _ => 0) 0 rfl : Handle longFile)
        [⟨fun _ => 0, 1, 512⟩] := by
  refine ⟨rfl, by decide, fun hright => ?_⟩
  obtain ⟨st', heq⟩ := hright fun _ => 7
  cases heq

/-- Five bytes are stored in place. -/
theorem write_right_five :
    WriteRight (Handle.opened smallFat (fun _ => 0) 0 rfl : Handle shortFile) 5 0 :=
  (write_right_iff smallVolume smallFat shortFile _ 5 0 (by decide)).mpr
    (.inr ⟨by decide, clean_one one_pos, by decide +kernel⟩)

/-- Three bytes are written at the end of a file of five, and none is stored. -/
theorem write_at_end : (internalRw smallVolume false (0, 0)
        ((Handle.opened smallFat (fun _ => 0) 0 rfl : Handle shortFile).setDev fun _ => 0).st
        (fun _ => 7) 3 5).map (fun r => (r.1, r.2.2.dirent.size)) = .ok (0, 5) ∧
      ¬ WriteRight (Handle.opened smallFat (fun _ => 0) 0 rfl : Handle shortFile) 3 5 := by
  refine ⟨rfl, fun hright => ?_⟩
  obtain ⟨st', fat', f', hcall, -⟩ := hright (fun _ => 0) (fun _ => 7) (0, 0)
  cases hcall

end Dgos.L3.Fat32
