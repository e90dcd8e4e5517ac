import Dgos.L3Files.BootFat32

/-!
# The I/O plan

`merge` is `disk_io_plan_t::add` without the array. The array can get 32769 entries: the
capacity doubles at 32768 entries to 65536, which is stored as 0, so that the entry after the
next makes the array as small as it was at the beginning.

Results:
* `planLoop_ok_iff`: the plan of a request is made unless it needs more than 32769 entries.
* `bytes_foldl_merge`, `ok_foldl_merge`: joining pieces changes neither what is read nor
  where it is stored.
* `length_foldl_merge`: the number of entries is the number of runs of the request.
* `replay_eq`: carrying out a plan stores the bytes of its entries one behind the other.
-/
namespace Dgos.L3.BootFat32

open List Nat Piece Plan

/-! ## Adding a piece -/

def Piece.item (p : Piece) : Vec := ⟨p.lba, 1, p.ofs, p.len⟩

def merge (log2SectorSize : Nat) (vec : List Vec) (p : Piece) : List Vec :=
  match vec with
  | prev :: rest =>
    if coalesces log2SectorSize prev (prev :: rest).length p.lba p.ofs p.len then
      { prev with count := prev.count + 1 } :: rest
    else p.item :: prev :: rest
  | [] => [p.item]

/-- The largest number of entries. -/
def maxEntries : Nat := 32769

/-- `capacity` is the size of the array, a power of two; when the array has got 65536 entries
it is 0, and more than half of them are not used. -/
def CapOk (p : Plan) : Prop :=
  p.vec.length ≤ p.room ∧ (p.capacity = p.room ∧ (p.room = 0 ∨ ∃ k ≤ 11, p.room = 16 * 2 ^ k) ∨
      p.capacity = 0 ∧ p.room = 65536 ∧ p.vec.length = maxEntries)

theorem capOk_empty : CapOk empty := ⟨le_refl 0, .inl ⟨rfl, .inl rfl⟩⟩

variable {p : Plan} {l : Nat} {ps : List Piece} {vec : List Vec} {x : Vec}

theorem CapOk.length_le (h : CapOk p) : p.vec.length ≤ maxEntries := by
  obtain ⟨hle, ⟨-, hroom | ⟨k, hk, hroom⟩⟩ | ⟨-, -, hlen⟩⟩ := h
  · omega
  · have : 2 ^ k ≤ 2 ^ 11 := Nat.pow_le_pow_right (by decide) hk
    rw [maxEntries]
    omega
  · exact le_of_eq hlen

theorem push_full (h : CapOk p) (hfull : p.vec.length = maxEntries) (item : Vec) :
    p.push item = .error .outOfBounds := by
  rw [maxEntries] at hfull
  have hcap : p.capacity = 0 := by
    obtain ⟨hle, ⟨-, hroom | ⟨k, hk, hroom⟩⟩ | ⟨hcap, -, -⟩⟩ := h
    · omega
    · have : 2 ^ k ≤ 2 ^ 11 := Nat.pow_le_pow_right (by decide) hk
      omega
    · exact hcap
  have hroom : p.reserve.room = 16 := by
    rw [reserve, hcap]
    rfl
  rw [push, if_pos (by omega)]

theorem push_of_room (hcap : CapOk { p.reserve with vec := x :: p.vec }) :
    p.push x = .ok { p.reserve with vec := x :: p.vec } := by
  rw [push, if_neg (by have := hcap.1; simp only [length_cons] at this; omega)]

theorem capOk_push (h : CapOk p) (hlt : p.vec.length < maxEntries) (item : Vec) :
    CapOk { p.reserve with vec := item :: p.vec } := by
  rw [maxEntries] at hlt
  by_cases hres : p.capacity < p.vec.length + 1
  · rw [reserve, if_pos hres]
    obtain ⟨hle, ⟨hcap, hroom | ⟨k, hk, hroom⟩⟩ | ⟨-, -, hlen⟩⟩ := h
    · have hnil : p.vec.length = 0 := by omega
      rw [hcap, hroom]
      exact ⟨by simp [hnil], .inl ⟨rfl, .inr ⟨0, by decide, rfl⟩⟩⟩
    · have hpos := Nat.two_pow_pos k
      rw [hcap, hroom, if_pos (by omega)]
      refine ⟨by simp only [length_cons]; omega, ?_⟩
      rcases lt_or_ge k 11 with hk' | hk'
      · have hpow : 2 ^ (k + 1) ≤ 2 ^ 11 := Nat.pow_le_pow_right (by decide) (by omega)
        refine .inl ⟨mod_eq_of_lt (by omega), .inr ⟨k + 1, by omega, ?_⟩⟩
        show 16 * 2 ^ k * 2 = 16 * 2 ^ (k + 1)
        rw [Nat.pow_succ, Nat.mul_assoc]
      · obtain rfl : k = 11 := by omega
        refine .inr ⟨rfl, rfl, ?_⟩
        rw [maxEntries, length_cons]
        omega
    · rw [maxEntries] at hlen
      omega
  · rw [reserve, if_neg hres]
    obtain ⟨hle, ⟨hcap, hroom⟩ | ⟨hcap, -, -⟩⟩ := h
    · exact ⟨by simp only [length_cons]; omega, .inl ⟨hcap, hroom⟩⟩
    · omega

theorem length_le_merge (l : Nat) (vec : List Vec) (p : Piece) :
    vec.length ≤ (merge l vec p).length := by
  fun_cases merge l vec p <;> simp

theorem length_le_foldl_merge (l : Nat) (ps : List Piece) (vec : List Vec) :
    vec.length ≤ (ps.foldl (merge l) vec).length := by
  induction ps generalizing vec with
  | nil => exact le_rfl
  | cons p ps ih => exact le_trans (length_le_merge l vec p) (ih _)

theorem add_ok (h : CapOk p) (piece : Piece) (hlen : (merge l p.vec piece).length ≤ maxEntries) :
    ∃ p', p.add l piece.lba piece.ofs piece.len = .ok p' ∧
      p'.vec = merge l p.vec piece ∧ CapOk p' := by
  obtain ⟨vec, capacity, room⟩ := p
  cases vec with
  | nil =>
    have hcap := capOk_push h (succ_pos 32768) piece.item
    exact ⟨_, push_of_room hcap, rfl, hcap⟩
  | cons prev rest =>
    rw [add]
    simp only [merge] at hlen ⊢
    split
    · exact ⟨_, rfl, rfl, h⟩
    · next hno =>
      rw [if_neg hno] at hlen
      have hcap := capOk_push h hlen piece.item
      exact ⟨_, push_of_room hcap, rfl, hcap⟩

theorem add_error (h : CapOk p) (piece : Piece) (hlen : maxEntries < (merge l p.vec piece).length) :
    p.add l piece.lba piece.ofs piece.len = .error .outOfBounds := by
  obtain ⟨vec, capacity, room⟩ := p
  have hle := h.length_le
  cases vec with
  | nil => exact absurd hlen (not_lt.mpr (succ_le_succ (zero_le 32768)))
  | cons prev rest =>
    rw [add]
    simp only [merge] at hlen ⊢
    split
    · next hyes =>
      rw [if_pos hyes] at hlen
      exact absurd hle (not_le.mpr hlen)
    · next hno =>
      rw [if_neg hno] at hlen
      exact push_full h (le_antisymm hle (le_of_lt_succ hlen)) _

/-! ## The pieces of a request -/

/-- The pieces that the loop adds. -/
def pieces (v : Volume) (clusters : List Nat) : Nat → Nat → Nat → Except Err (List Piece)
  | 0, _, bytes => if bytes = 0 then .ok [] else .error .fuel
  | fuel + 1, ofs, bytes =>
    if bytes = 0 then .ok []
    else do
      let piece ← pieceAt v clusters ofs bytes
      let ps ← pieces v clusters fuel (ofs + piece.len) (bytes - piece.len)
      return piece :: ps

theorem plan_done_iff (h : CapOk p) (vec : List Vec) :
    (∃ p', (.ok p : Except Err Plan) = .ok p' ∧ p'.vec = vec) ↔
      ∃ ps, (.ok [] : Except Err (List Piece)) = .ok ps ∧
        ps.foldl (merge l) p.vec = vec ∧ vec.length ≤ maxEntries := by
  constructor
  · rintro ⟨p', hp', rfl⟩
    cases hp'
    exact ⟨[], rfl, rfl, h.length_le⟩
  · rintro ⟨ps, hps, rfl, -⟩
    cases hps
    exact ⟨p, rfl, rfl⟩

theorem planLoop_ok_iff (v : Volume) (clusters : List Nat) (fuel ofs bytes : Nat)
    (h : CapOk p) (vec : List Vec) :
    (∃ p', planLoop v clusters fuel ofs bytes p = .ok p' ∧ p'.vec = vec) ↔
      ∃ ps, pieces v clusters fuel ofs bytes = .ok ps ∧
        ps.foldl (merge v.log2SectorSz) p.vec = vec ∧ vec.length ≤ maxEntries := by
  induction fuel generalizing ofs bytes p with
  | zero =>
    rw [planLoop, pieces]
    split
    · exact plan_done_iff h vec
    · simp
  | succ fuel ih =>
    rw [planLoop, pieces]
    split
    · exact plan_done_iff h vec
    cases hpiece : pieceAt v clusters ofs bytes with
    | error e => simp [bind, Except.bind]
    | ok piece =>
      rw [ok_bind rfl, ok_bind rfl]
      rcases lt_or_ge maxEntries (merge v.log2SectorSz p.vec piece).length with hbig | hroom
      · rw [add_error h piece hbig]
        constructor
        · rintro ⟨p', hp', -⟩
          cases hp'
        · rintro ⟨ps, hps, rfl, hle⟩
          obtain ⟨ps', -, hps⟩ := bind_eq_ok hps
          cases hps
          have := length_le_foldl_merge v.log2SectorSz ps' (merge v.log2SectorSz p.vec piece)
          exact absurd (le_trans this hle) (not_le.mpr hbig)
      · obtain ⟨p', hadd, hvec, hcap⟩ := add_ok h piece hroom
        rw [ok_bind hadd, ih _ _ hcap, hvec]
        constructor
        · rintro ⟨ps, hps, hfold, hle⟩
          exact ⟨piece :: ps, by rw [hps]; rfl, hfold, hle⟩
        · rintro ⟨ps, hps, hfold, hle⟩
          obtain ⟨ps', hps', hps⟩ := bind_eq_ok hps
          cases hps
          exact ⟨ps', hps', hfold, hle⟩

/-! ## What an entry reads -/

section

variable (v : Volume)

/-- An entry of more than one sector is a run of whole sectors; every sector is on the disk. -/
structure Vec.Ok (x : Vec) : Prop where
  pos : 0 < x.count
  whole : 1 < x.count → x.sectorOfs = 0 ∧ x.byteCount = v.sectorSz
  onDisk : x.lba + x.count ≤ v.sectors

theorem diskRead_eq_true {v : Volume} {lba count : Nat} :
    diskRead v lba count = true ↔ lba + count ≤ v.sectors := decide_eq_true_iff

def Vec.size (x : Vec) : Nat := x.byteCount * x.count

def Vec.bytes (data : Data) (x : Vec) : List UInt8 :=
  peek (sectorBuf v data x.lba) x.sectorOfs x.size

def Piece.bytes (data : Data) (p : Piece) : List UInt8 :=
  peek (sectorBuf v data p.lba) p.ofs p.len

theorem sectorSz_pos : 0 < v.sectorSz := Nat.two_pow_pos _

theorem sectorBuf_add (data : Data) (lba count i : Nat) :
    sectorBuf v data lba (v.sectorSz * count + i) = sectorBuf v data (lba + count) i := by
  rw [sectorBuf, sectorBuf, Nat.mul_add_div (sectorSz_pos v), Nat.mul_add_mod, Nat.add_assoc]

theorem peek_sectorBuf_add (data : Data) (lba count n : Nat) :
    peek (sectorBuf v data lba) (v.sectorSz * count) n =
      peek (sectorBuf v data (lba + count)) 0 n := by
  apply map_congr_left
  intro i _
  rw [Nat.zero_add, sectorBuf_add]

theorem Piece.bytes_item (data : Data) (p : Piece) : p.item.bytes v data = p.bytes v data := by
  rw [Vec.bytes, Vec.size, item, Nat.mul_one, bytes]

theorem Piece.ok_item {p : Piece} (h : p.lba < v.sectors) : p.item.Ok v :=
  ⟨Nat.one_pos, fun h1 => absurd h1 (Nat.lt_irrefl 1), h⟩

variable {v} {items : List Vec}

theorem coalesces_iff {prev : Vec} {n lba ofs len : Nat} :
    coalesces v.log2SectorSz prev n lba ofs len = true ↔
      prev.lba + prev.count = lba ∧ prev.sectorOfs = 0 ∧ ofs = 0 ∧
        prev.byteCount = v.sectorSz ∧ len = v.sectorSz ∧ prev.count < 0xFFFFFFFF - n := by
  rw [coalesces, decide_eq_true_eq, Volume.sectorSz]

theorem Vec.bytes_succ (data : Data) (h0 : x.sectorOfs = 0) (hwhole : x.byteCount = v.sectorSz) :
    Vec.bytes v data { x with count := x.count + 1 } =
      x.bytes v data ++ peek (sectorBuf v data (x.lba + x.count)) 0 v.sectorSz := by
  rw [Vec.bytes, Vec.bytes, Vec.size, Vec.size, h0, hwhole, Nat.mul_add, Nat.mul_one, peek_add,
    Nat.zero_add, peek_sectorBuf_add]

theorem bytes_merge (data : Data) (vec : List Vec) (p : Piece) :
    (merge v.log2SectorSz vec p).reverse.flatMap (Vec.bytes v data) =
      vec.reverse.flatMap (Vec.bytes v data) ++ p.bytes v data := by
  fun_cases merge v.log2SectorSz vec p with
  | case1 prev rest h =>
    obtain ⟨hlba, h0, hofs, hwhole, hlen, -⟩ := coalesces_iff.mp h
    simp only [reverse_cons, flatMap_append, flatMap_singleton, append_assoc]
    rw [Vec.bytes_succ data h0 hwhole, bytes, hofs, hlen, ← hlba]
  | case2 prev rest h =>
    rw [reverse_cons, flatMap_append, flatMap_singleton, bytes_item]
  | case3 => simp [bytes_item]

theorem bytes_foldl_merge (data : Data) (ps : List Piece) (vec : List Vec) :
    (ps.foldl (merge v.log2SectorSz) vec).reverse.flatMap (Vec.bytes v data) =
      vec.reverse.flatMap (Vec.bytes v data) ++ ps.flatMap (bytes v data) := by
  induction ps generalizing vec with
  | nil => simp
  | cons p ps ih =>
    rw [foldl_cons, ih, bytes_merge, flatMap_cons, append_assoc]

theorem ok_merge {p : Piece} (hvec : ∀ x ∈ vec, x.Ok v)
    (hp : p.lba < v.sectors) : ∀ x ∈ merge v.log2SectorSz vec p, x.Ok v := by
  fun_cases merge v.log2SectorSz vec p with
  | case1 prev rest h =>
    obtain ⟨hlba, h0, -, hwhole, -, -⟩ := coalesces_iff.mp h
    rw [forall_mem_cons]
    refine ⟨⟨succ_pos _, fun _ => ⟨h0, hwhole⟩, ?_⟩, fun x hx => hvec x (mem_cons_of_mem _ hx)⟩
    show prev.lba + (prev.count + 1) ≤ v.sectors
    omega
  | case2 prev rest h => exact forall_mem_cons.mpr ⟨ok_item v hp, hvec⟩
  | case3 => exact forall_mem_cons.mpr ⟨ok_item v hp, hvec⟩

theorem ok_foldl_merge (hvec : ∀ x ∈ vec, x.Ok v) (hps : ∀ p ∈ ps, p.lba < v.sectors) :
    ∀ x ∈ ps.foldl (merge v.log2SectorSz) vec, x.Ok v := by
  induction ps generalizing vec with
  | nil => exact hvec
  | cons p ps ih =>
    rw [forall_mem_cons] at hps
    exact ih (ok_merge hvec hps.1) hps.2

/-! ## Carrying out the plan -/

/-- One entry: its bytes are stored, whichever way it is read. -/
theorem replay_cons (data : Data) (h : x.Ok v) (items : List Vec) (dest : Nat)
    (totalRead : Int) (m : Buf) : replay v data (x :: items) dest totalRead m =
      replay v data items (dest + x.size % 2 ^ 32) (int32 (totalRead + (x.size % 2 ^ 32 : Nat)))
        (poke m dest (x.bytes v data)) := by
  rw [replay]
  by_cases hw : x.sectorOfs = 0 ∧ x.byteCount = v.sectorSz
  · rw [if_pos hw, if_pos (diskRead_eq_true.mpr h.onDisk), Vec.bytes, Vec.size, hw.1, hw.2,
      Nat.mul_comm x.count]
  have h1 : x.count = 1 := by
    have := h.pos
    rcases lt_or_ge 1 x.count with hgt | hle
    · exact absurd (h.whole hgt) hw
    · omega
  have hdisk := h.onDisk
  rw [h1] at hdisk
  rw [if_neg hw, if_pos (diskRead_eq_true.mpr hdisk), Vec.bytes, Vec.size, h1, Nat.mul_one]

def sizes (items : List Vec) : Nat := (items.map Vec.size).sum

theorem int32_int32_add (a b : Int) : int32 (int32 a + b) = int32 (a + b) := by
  rw [int32, int32, int32]
  omega

/-- A plan of less than 4 GiB. -/
theorem replay_eq (data : Data) (h : ∀ x ∈ items, x.Ok v) (dest : Nat)
    (totalRead : Int) (m : Buf) (hlt : sizes items < 2 ^ 32) :
    replay v data items dest (int32 totalRead) m = (int32 (totalRead + (sizes items : Nat)),
        poke m dest (items.flatMap (Vec.bytes v data))) := by
  induction items generalizing dest totalRead m with
  | nil => simp [replay, sizes]
  | cons x items ih =>
    rw [forall_mem_cons] at h
    have hsum : sizes (x :: items) = x.size + sizes items := by
      rw [sizes, map_cons, sum_cons, sizes]
    have hx : x.size % 2 ^ 32 = x.size := mod_eq_of_lt (by omega)
    have hlen : (x.bytes v data).length = x.size := peek_length _ _ _
    rw [replay_cons data h.1, hx, int32_int32_add, ih h.2 _ _ _ (by omega), hsum,
      flatMap_cons, ← poke_poke_append, hlen, Int.natCast_add, Int.add_assoc]

/-- Whatever its size, a plan stores into the first 4 GiB all that it says. -/
theorem replay_stores {data : Data} {b : UInt8} (hdata : ∀ l o, data l o = b)
    (h : ∀ x ∈ items, x.Ok v) (dest : Nat) (totalRead : Int) {m : Buf} {i : Nat}
    (hi : m i = b ∨ dest ≤ i ∧ i < dest + sizes items ∧ i < 2 ^ 32) :
    (replay v data items dest totalRead m).2 i = b := by
  induction items generalizing dest totalRead m with
  | nil =>
    rcases hi with hi | ⟨hge, hlt, -⟩
    · exact hi
    · exact absurd hlt (not_lt.mpr hge)
  | cons x items ih =>
    rw [forall_mem_cons] at h
    have hsum : sizes (x :: items) = x.size + sizes items := by
      rw [sizes, map_cons, sum_cons, sizes]
    rw [replay_cons data h.1]
    apply ih h.2
    have hbytes : x.bytes v data = List.replicate x.size b := by
      rw [Vec.bytes, peek]
      simp [sectorBuf, hdata]
    rw [hbytes, poke, length_replicate]
    by_cases hin : dest ≤ i ∧ i < dest + x.size
    · left
      rw [if_pos hin, getD_replicate]
      omega
    · rw [if_neg hin]
      rcases hi with hi | ⟨hge, hlt, h32⟩
      · exact .inl hi
      · omega

end

/-! ## The number of entries -/

/-- Two pieces that are read together. -/
def Joined (sectorSz : Nat) (p q : Piece) : Prop :=
  p.lba + 1 = q.lba ∧ (p.ofs = 0 ∧ p.len = sectorSz) ∧ q.ofs = 0 ∧ q.len = sectorSz

instance (sectorSz : Nat) (p q : Piece) : Decidable (Joined sectorSz p q) := by
  unfold Joined; infer_instance

/-- The number of runs that begin behind the piece `p`. -/
def runsFrom (sectorSz : Nat) : Piece → List Piece → Nat
  | _, [] => 0
  | p, q :: ps => (if Joined sectorSz p q then 0 else 1) + runsFrom sectorSz q ps

/-- The number of runs of pieces that are joined one with the next. -/
def runs (sectorSz : Nat) : List Piece → Nat
  | [] => 0
  | p :: ps => 1 + runsFrom sectorSz p ps

/-- The newest entry ends with the piece `p`. -/
structure Ends (x : Vec) (p : Piece) : Prop where
  pos : 0 < x.count
  lba : x.lba + x.count = p.lba + 1
  ofs : x.sectorOfs = p.ofs
  len : x.byteCount = p.len

theorem ends_item (p : Piece) : Ends p.item p := ⟨Nat.one_pos, rfl, rfl, rfl⟩

theorem length_foldl_merge_cons {v : Volume} {rest : List Vec} {p : Piece} (h : Ends x p)
    (hcount : x.count + rest.length + ps.length < 0xFFFFFFFE) :
    (ps.foldl (merge v.log2SectorSz) (x :: rest)).length =
      (x :: rest).length + runsFrom v.sectorSz p ps := by
  induction ps generalizing x rest p with
  | nil => rfl
  | cons q ps ih =>
    simp only [length_cons] at hcount
    have hjoin : coalesces v.log2SectorSz x (x :: rest).length q.lba q.ofs q.len = true ↔
        Joined v.sectorSz p q := by
      rw [coalesces_iff, h.lba, h.ofs, h.len, length_cons]
      constructor
      · rintro ⟨hlba, h0, hq0, hlen, hqlen, -⟩
        exact ⟨hlba, ⟨h0, hlen⟩, hq0, hqlen⟩
      · rintro ⟨hlba, ⟨h0, hlen⟩, hq0, hqlen⟩
        exact ⟨hlba, h0, hq0, hlen, hqlen, by omega⟩
    rw [foldl_cons, merge, runsFrom]
    by_cases hj : Joined v.sectorSz p q
    · obtain ⟨hlba, ⟨h0, hlen⟩, hq0, hqlen⟩ := hj
      rw [if_pos (hjoin.mpr ⟨hlba, ⟨h0, hlen⟩, hq0, hqlen⟩),
        if_pos ⟨hlba, ⟨h0, hlen⟩, hq0, hqlen⟩, Nat.zero_add]
      refine ih ⟨succ_pos _, ?_, ?_, ?_⟩ (by simp only; omega)
      · rw [← Nat.add_assoc, h.lba, hlba]
      · exact h.ofs.trans (h0.trans hq0.symm)
      · exact h.len.trans (hlen.trans hqlen.symm)
    · rw [if_neg (mt hjoin.mp hj), if_neg hj, ih (ends_item q)]
      · simp only [length_cons]
        omega
      · have := h.pos
        have : q.item.count = 1 := rfl
        simp only [length_cons]
        omega

theorem length_foldl_merge (v : Volume) (hlt : ps.length < 2 ^ 31) :
    (ps.foldl (merge v.log2SectorSz) []).length = runs v.sectorSz ps := by
  cases ps with
  | nil => rfl
  | cons p ps =>
    have hone : p.item.count = 1 := rfl
    rw [foldl_cons, merge, length_foldl_merge_cons (ends_item p)]
    · rfl
    · simp only [length_cons, length_nil] at hlt ⊢
      omega

end Dgos.L3.BootFat32
