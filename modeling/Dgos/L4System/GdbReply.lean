import Dgos.Core.Bytes
import Dgos.Core.RemoteSerial

/-!
# The reply encoder of the GDB stub (kernel/arch/x86_64/gdbstub.cc)

`gdbstub_t::reply` escapes the bytes the protocol reserves, codes four and more equal bytes as a
run, and frames the result. The loop that counts the bytes of a run is bounded by the position in
the reply, `reply_index + count < size`, where the position in the payload is meant. While
nothing has been saved by runs the position in the reply is ahead, and the bound stops too early;
afterwards it is behind, and the loop may go on beyond the end of the payload.

`data` is the memory from the payload on, of which `size` bytes are the payload. `seen` is one
more than the last index that is read.

Results:
* `reply_right_iff`: a receiver decodes the packet to the payload, nothing beyond the payload is
  read, no count character is reserved and the packet fits its buffer, if and only if no run is
  coded with 15 or 17 bytes, at most two bytes have been saved where the payload's last bytes are
  scanned, and the coded bytes leave room for the frame.
* `reads_beyond`: sixteen equal bytes that are decoded as twenty-five.
-/
namespace Dgos.L4.GdbReply

open RemoteSerial List Tok UInt8

/-! ## The code -/

/-- mirrors gdbstub.cc:291 -/
def maxBufferSize : Nat := 8192 - 16

/-- mirrors gdbstub.cc:762 -/
def escaped (c : UInt8) : Bool :=
  c == 0x24 || c == 0x23 || c == 0x7d || c == 0x7b || c == 0x2a

/-- What a part of the code appends to `reply_buf`, and how far it reads the payload. -/
structure Enc where
  bytes : List UInt8
  seen : Nat

def Enc.after (e : Enc) (seen : Nat) (bytes : List UInt8) : Enc :=
  ⟨bytes ++ e.bytes, max seen e.seen⟩

/-- The loop that looks for repeats: the count, and how far it has read. The count is bounded by
94 behind the access, so 94 rounds are enough.
mirrors gdbstub.cc:766-770 -/
def repeatCount (data : Buf) (size replyIndex i : Nat) (c : UInt8) : Nat → Nat → Nat × Nat
  | 0, count => (count, 0)
  | fuel + 1, count =>
    if replyIndex + count < size then
      if data (i + count) = c ∧ count < 126 - 32 then
        let r := repeatCount data size replyIndex i c fuel (count + 1)
        (r.1, max (i + count + 1) r.2)
      else (count, i + count + 1)
    else (count, 0)

/-- The loop that avoids the counts whose character is `#` or `$`.
mirrors gdbstub.cc:775-781 -/
def avoidReserved : Nat → Nat
  | 0 => 0
  | count + 1 =>
    if count + 1 + 28 = 0x23 ∨ count + 1 + 28 = 0x24 then avoidReserved count else count + 1

/-- The loop over the payload. Each round goes on by at least one byte.
mirrors gdbstub.cc:759-790 -/
def encodeLoop (data : Buf) (size : Nat) : Nat → Nat → Nat → Enc
  | 0, _, _ => ⟨[], 0⟩
  | fuel + 1, i, replyIndex =>
    if i < size then
      let c := data i
      if escaped c then
        (encodeLoop data size fuel (i + 1) (replyIndex + 2)).after (i + 1) [0x7d, c ^^^ 0x20]
      else
        let r := repeatCount data size (replyIndex + 1) i c (126 - 32) 1
        if r.1 < 4 then
          (encodeLoop data size fuel (i + 1) (replyIndex + 1)).after (max (i + 1) r.2) [c]
        else
          let count := avoidReserved r.1
          (encodeLoop data size fuel (i + count) (replyIndex + 3)).after (max (i + 1) r.2)
            [c, 0x2a, UInt8.ofNat (count - 4 + 32)]
    else ⟨[], 0⟩

/-- mirrors gdbstub.cc:1819-1825 -/
def calcChecksum (data : List UInt8) : UInt8 := data.foldl (fun checksum d => checksum + d) 0

/-- mirrors gdbstub.cc:429-432 -/
def hexlookup : List UInt8 :=
  [0x30, 0x31, 0x32, 0x33, 0x34, 0x35, 0x36, 0x37, 0x38, 0x39, 0x61, 0x62, 0x63, 0x64, 0x65, 0x66]

/-- mirrors gdbstub.cc:437-447 -/
def toHexBytes (value : UInt8) : List UInt8 :=
  [hexlookup.getD ((value >>> 4) &&& 0xf).toNat 0, hexlookup.getD (value &&& 0xf).toNat 0]

def encodeBody (data : Buf) (size : Nat) : Enc := encodeLoop data size size 0 1

/-- The bytes that are handed to the port.
mirrors gdbstub.cc:756-795 -/
def reply (data : Buf) (size : Nat) : Enc :=
  let e := encodeBody data size
  ⟨0x24 :: (e.bytes ++ 0x23 :: toHexBytes (calcChecksum e.bytes)), e.seen⟩

/-! ## What the encoder is for -/

/-- `#`, `$`, `+` and `-`. -/
def reserved : List UInt8 := [0x23, 0x24, 0x2b, 0x2d]

structure Right (data : Buf) (size : Nat) : Prop where
  decoded : decode (reply data size).bytes = some (peek data 0 size)
  inside : (reply data size).seen ≤ size
  counts : ∀ n ∈ counts (encodeBody data size).bytes, n ∉ reserved
  /-- with the terminator -/
  fits : (reply data size).bytes.length + 1 ≤ maxBufferSize

/-! ## How a payload is split -/

/-- The length of the run a list begins with. -/
def runLength : List UInt8 → Nat
  | [] => 0
  | c :: l => (l.takeWhile (· = c)).length + 1

/-- The part of a run that is counted when `written` bytes are in front of it in the reply. -/
def countOf (size written : Nat) (l : List UInt8) : Nat :=
  max 1 (min (runLength l) (min 94 (size - (written + 2))))

def nextTok (size written : Nat) (c : UInt8) (l : List UInt8) : Tok :=
  if escaped c then .esc c
  else if countOf size written (c :: l) < 4 then .lit c
  else .run c (avoidReserved (countOf size written (c :: l)))

/-- The tokens of the rest of a payload. -/
def split (size : Nat) : Nat → List UInt8 → Nat → List Tok
  | fuel + 1, c :: l, written =>
    let t := nextTok size written c l
    t :: split size fuel ((c :: l).drop t.text.length) (written + t.code.length)
  | _, _, _ => []

/-- The token is of an escaped byte. -/
def escapes : Tok → Bool
  | .esc _ => true
  | _ => false

/-- Whenever what is left of the payload is a run that the scan reaches the end of, no more than
two bytes have been saved. -/
def Inside (size : Nat) : Nat → List Tok → Prop
  | _, [] => True
  | written, t :: ts =>
    let rest := (t :: ts).flatMap Tok.text
    (escapes t = false → runLength rest = rest.length → rest.length ≤ 94 →
      size ≤ written + 2 + rest.length) ∧ Inside size (written + t.code.length) ts

instance decidableInside (size : Nat) : (written : Nat) → (ts : List Tok) →
    Decidable (Inside size written ts)
  | _, [] => isTrue trivial
  | written, t :: ts =>
    have := decidableInside size (written + t.code.length) ts
    inferInstanceAs (Decidable (_ ∧ _))

structure Sound (payload : List UInt8) : Prop where
  inside : Inside payload.length 0 (split payload.length payload.length payload 0)
  counts : ∀ t ∈ split payload.length payload.length payload 0,
    t.text.length ≠ 15 ∧ t.text.length ≠ 17
  fits : ((split payload.length payload.length payload 0).flatMap Tok.code).length + 5 ≤
    maxBufferSize

/-! ## Tokens -/

theorem avoidReserved_eq (n : Nat) : avoidReserved n = if n = 7 ∨ n = 8 then 6 else n := by
  by_cases h : n ≤ 8
  · have : ∀ n : Fin 9, avoidReserved n = if n.1 = 7 ∨ n.1 = 8 then 6 else n.1 := by decide
    exact this ⟨n, by omega⟩
  · obtain ⟨m, rfl⟩ : ∃ m, n = m + 1 := ⟨n - 1, by omega⟩
    rw [avoidReserved, if_neg (by omega), if_neg (by omega)]

variable {l : List UInt8}

theorem countOf_le (size written : Nat) (h : l ≠ []) :
    1 ≤ countOf size written l ∧ countOf size written l ≤ runLength l ∧
      countOf size written l ≤ 94 := by
  obtain ⟨c, l, rfl⟩ := exists_cons_of_ne_nil h
  have : 1 ≤ runLength (c :: l) := Nat.le_add_left _ _
  unfold countOf
  omega

theorem escapes_nextTok (size written : Nat) (c : UInt8) (l : List UInt8) :
    escapes (nextTok size written c l) = escaped c := by
  rw [nextTok]
  cases escaped c with
  | true => rfl
  | false =>
    simp only [Bool.false_eq_true, if_false]
    split <;> rfl

theorem nextTok_ok (size written : Nat) (c : UInt8) (l : List UInt8) :
    (nextTok size written c l).Ok := by
  unfold nextTok
  split <;> rename_i he
  · simp only [escaped, Bool.or_eq_true, beq_iff_eq] at he
    unfold Ok
    rcases he with (((rfl | rfl) | rfl) | rfl) | rfl <;> decide
  have hp : Plain c := by
    simp only [escaped, Bool.or_eq_true, beq_iff_eq, not_or] at he
    obtain ⟨⟨⟨⟨h1, h2⟩, h3⟩, -⟩, h5⟩ := he
    exact ⟨h1, h2, h5, h3⟩
  split
  · exact hp
  · have hle := countOf_le size written (cons_ne_nil c l)
    have hav := avoidReserved_eq (countOf size written (c :: l))
    refine ⟨hp, ?_⟩
    split at hav <;> omega

theorem split_ok (size : Nat) : ∀ (fuel : Nat) (l : List UInt8) (written : Nat),
    ∀ t ∈ split size fuel l written, t.Ok := by
  intro fuel
  induction fuel with
  | zero => simp [split]
  | succ fuel ih =>
    intro l written
    cases l with
    | nil => simp [split]
    | cons c l => exact forall_mem_cons.2 ⟨nextTok_ok size written c l, ih _ _⟩

theorem runLength_le (c : UInt8) (l : List UInt8) : runLength (c :: l) ≤ (c :: l).length := by
  have := ( takeWhile_prefix (· = c) (l := l)).length_le
  simpa [runLength] using this

variable {k : Nat}

theorem take_runLength (c : UInt8) (l : List UInt8) (h : k ≤ runLength (c :: l)) :
    (c :: l).take k = List.replicate k c := by
  have hall : ∀ d ∈ (c :: l).take (runLength (c :: l)), d = c := by
    intro d hd
    rw [runLength, take_succ_cons, mem_cons] at hd
    rcases hd with hd | hd
    · exact hd
    · have : d ∈ l.takeWhile (· = c) := by
        rwa [← prefix_iff_eq_take.1 ( takeWhile_prefix _)] at hd
      simpa using mem_takeWhile_imp this
  have hle := runLength_le c l
  rw [eq_replicate_iff]
  refine ⟨length_take_of_le (by omega), fun d hd => hall d ?_⟩
  exact take_subset_take_left _ h hd

theorem getD_runLength (c : UInt8) (l : List UInt8) (h : runLength (c :: l) < (c :: l).length) :
    (c :: l).getD (runLength (c :: l)) 0 ≠ c := by
  simp only [runLength, length_cons, Nat.add_lt_add_iff_right, getD_cons_succ] at h ⊢
  induction l with
  | nil => simp at h
  | cons d l ih =>
    by_cases hd : d = c
    · simp only [hd, decide_true, takeWhile_cons_of_pos, length_cons,
        Nat.add_lt_add_iff_right, getD_cons_succ] at h ⊢
      exact ih h
    · simp [hd]

theorem nextTok_text (size written : Nat) (c : UInt8) (l : List UInt8) :
    let t := nextTok size written c l
    1 ≤ t.text.length ∧ t.text.length ≤ (c :: l).length ∧ (c :: l).take t.text.length = t.text := by
  have hrun := runLength_le c l
  have hle := countOf_le size written (cons_ne_nil c l)
  have hav := avoidReserved_eq (countOf size written (c :: l))
  simp only [nextTok]
  split
  · simp [text]
  split
  · simp [text]
  · simp only [text, length_replicate]
    have hk : 1 ≤ avoidReserved (countOf size written (c :: l)) ∧
        avoidReserved (countOf size written (c :: l)) ≤ runLength (c :: l) := by
      split at hav <;> omega
    exact ⟨hk.1, by omega, take_runLength c l hk.2⟩

theorem split_text (size : Nat) : ∀ (fuel : Nat) (l : List UInt8) (written : Nat),
    l.length ≤ fuel → (split size fuel l written).flatMap text = l := by
  intro fuel
  induction fuel with
  | zero =>
    intro l written h
    rw [length_eq_zero_iff.1 (by omega : l.length = 0)]
    rfl
  | succ fuel ih =>
    intro l written h
    cases l with
    | nil => rfl
    | cons c l =>
      obtain ⟨h1, -, htake⟩ := nextTok_text size written c l
      rw [split, flatMap_cons, ih _ _ (by rw [length_drop]; omega)]
      nth_rewrite 1 [← htake]
      exact take_append_drop _ _

/-! ## The scan for repeats -/

section Scan

variable {data : Buf} {size replyIndex i fuel count : Nat} {c : UInt8}

/-- The scan stops at the first count that its condition refuses, and reads up to there. -/
theorem repeatCount_eq (hk : count ≤ k) (hfuel : k < count + fuel)
    (hgo : ∀ j, count ≤ j → j < k → replyIndex + j < size ∧ data (i + j) = c ∧ j < 94)
    (hstop : ¬ (replyIndex + k < size ∧ data (i + k) = c ∧ k < 94)) :
    (repeatCount data size replyIndex i c fuel count).1 = k ∧
      (repeatCount data size replyIndex i c fuel count).2 ≤
        (if replyIndex + k < size then i + k + 1 else i + k) := by
  induction fuel generalizing count with
  | zero => omega
  | succ fuel ih =>
    rw [repeatCount]
    by_cases hck : count = k
    · subst hck
      by_cases hb : replyIndex + count < size
      · rw [if_pos hb, if_neg (fun h => hstop ⟨hb, h⟩), if_pos hb]
        exact ⟨rfl, le_rfl⟩
      · rw [if_neg hb]
        exact ⟨rfl, Nat.zero_le _⟩
    · obtain ⟨hb, hd, h94⟩ := hgo count le_rfl (by omega)
      obtain ⟨h1, h2⟩ := ih (by omega : count + 1 ≤ k) (by omega) fun j hj => hgo j (by omega)
      rw [if_pos hb, if_pos ⟨hd, h94⟩]
      refine ⟨h1, Nat.max_le.2 ⟨?_, h2⟩⟩
      split <;> omega

/-- When the bound lets the scan go to the end of a run, it reads the byte behind it. -/
theorem le_repeatCount {n : Nat} (hn : count ≤ n) (hfuel : n < count + fuel)
    (hall : ∀ j < n, data (i + j) = c) (h94 : n ≤ 94) (hb : replyIndex + n < size) :
    i + n + 1 ≤ (repeatCount data size replyIndex i c fuel count).2 := by
  induction fuel generalizing count with
  | zero => omega
  | succ fuel ih =>
    rw [repeatCount, if_pos (by omega)]
    by_cases hcn : count = n
    · subst hcn
      split
      · exact Nat.le_max_left _ _
      · exact le_rfl
    · rw [if_pos ⟨hall count (by omega), by omega⟩]
      exact le_trans (ih (by omega) (by omega)) (Nat.le_max_right _ _)

end Scan

/-! ## The loop -/

section Loop

variable {data : Buf} {size i written : Nat}

theorem peek_rest (hi : i < size) :
    peek data i (size - i) = data i :: peek data (i + 1) (size - (i + 1)) := by
  rw [show size - i = 1 + (size - (i + 1)) by omega, peek_add]
  rfl

theorem peek_drop (k : Nat) :
    (peek data i (size - i)).drop k = peek data (i + k) (size - (i + k)) := by
  by_cases hk : k ≤ size - i
  · rw [show size - i = k + (size - (i + k)) by omega, peek_add, drop_left' (by simp)]
  · rw [drop_of_length_le (by rw [peek_length]; omega), show size - (i + k) = 0 by omega]
    rfl

theorem runLength_peek_le (hi : i < size) : runLength (peek data i (size - i)) ≤ size - i := by
  have := runLength_le (data i) (peek data (i + 1) (size - (i + 1)))
  rwa [← peek_rest hi, peek_length] at this

theorem data_of_lt_runLength {j : Nat} (hi : i < size)
    (h : j < runLength (peek data i (size - i))) : data (i + j) = data i := by
  rw [← getD_peek data i (h.trans_le (runLength_peek_le hi))]
  rw [peek_rest hi] at h ⊢
  rw [getD_eq_getElem?_getD, ← getElem?_take_of_lt (Nat.lt_succ_self j), take_runLength _ _ h,
    getElem?_replicate_of_lt (Nat.lt_succ_self j)]
  rfl

theorem data_runLength_ne (hi : i < size) (h : runLength (peek data i (size - i)) < size - i) :
    data (i + runLength (peek data i (size - i))) ≠ data i := by
  rw [← getD_peek data i h]
  rw [peek_rest hi] at h ⊢
  refine getD_runLength _ _ ?_
  rw [← peek_rest hi, peek_length]
  rwa [← peek_rest hi] at h

/-- The part of the condition that is about one position. -/
def Reaches (size written : Nat) (l : List UInt8) : Prop :=
  runLength l = l.length → l.length ≤ 94 → size ≤ written + 2 + l.length

theorem repeatCount_inside (hi : i < size) (h : Reaches size written (peek data i (size - i))) :
    (repeatCount data size (written + 2) i (data i) 94 1).1 =
        countOf size written (peek data i (size - i)) ∧
      (repeatCount data size (written + 2) i (data i) 94 1).2 ≤ size := by
  have hne : peek data i (size - i) ≠ [] := by
    rw [peek_rest hi]
    exact cons_ne_nil _ _
  have hle := @runLength_peek_le data size i hi
  have hcount := countOf_le size written hne
  simp only [Reaches, peek_length] at h
  have hk : countOf size written (peek data i (size - i)) =
    max 1 (min (runLength (peek data i (size - i))) (min 94 (size - (written + 2)))) := rfl
  generalize countOf size written (peek data i (size - i)) = k at *
  -- the scan is stopped by its bounds or by the end of the run, which is within the payload
  have hstop : ¬ (written + 2 + k < size ∧ data (i + k) = data i ∧ k < 94) := by
    rintro ⟨hb, hd, h94⟩
    obtain rfl : k = runLength (peek data i (size - i)) := by omega
    by_cases hend : runLength (peek data i (size - i)) = size - i
    · omega
    · exact data_runLength_ne hi (by omega) hd
  have hgo : ∀ j, 1 ≤ j → j < k → written + 2 + j < size ∧ data (i + j) = data i ∧ j < 94 :=
    fun j hj hjk => ⟨by omega, data_of_lt_runLength hi (by omega), by omega⟩
  obtain ⟨h1, h2⟩ := repeatCount_eq hcount.1 (by omega : k < 1 + 94) hgo hstop
  refine ⟨h1, le_trans h2 ?_⟩
  split <;> omega

theorem repeatCount_beyond (hi : i < size) (h : ¬ Reaches size written (peek data i (size - i))) :
    size < (repeatCount data size (written + 2) i (data i) 94 1).2 := by
  simp only [Reaches, Classical.not_imp, peek_length] at h
  obtain ⟨hrun, h94, hlt⟩ := h
  have hread : i + (size - i) + 1 ≤ (repeatCount data size (written + 2) i (data i) 94 1).2 :=
    le_repeatCount (by omega) (by omega) (fun j hj => data_of_lt_runLength hi (by omega)) h94
      (by omega)
  omega

theorem encodeLoop_succ (fuel : Nat) (hi : i < size) (hl : peek data i (size - i) = data i :: l)
    (h : escaped (data i) = false → Reaches size written (data i :: l)) :
    let t := nextTok size written (data i) l
    ∃ s ≤ size, encodeLoop data size (fuel + 1) i (written + 1) =
      (encodeLoop data size fuel (i + t.text.length) (written + t.code.length + 1)).after s
        t.code := by
  rw [encodeLoop, if_pos hi]
  by_cases he : escaped (data i) = true
  · refine ⟨i + 1, hi, ?_⟩
    simp only [if_pos he, nextTok]
    rfl
  · have hr := repeatCount_inside hi (hl ▸ h (Bool.eq_false_iff.2 he))
    have hav := avoidReserved_eq (countOf size written (data i :: l))
    rw [hl] at hr
    refine ⟨_, Nat.max_le.2 ⟨hi, hr.2⟩, ?_⟩
    simp only [if_neg he, hr.1, nextTok]
    split
    · rfl
    · have hc : avoidReserved (countOf size written (data i :: l)) - 4 + 32 =
          avoidReserved (countOf size written (data i :: l)) + 28 := by
        split at hav <;> omega
      simp only [hc, text, code, length_replicate]
      rfl

/-- A scan that leaves the payload shows. -/
theorem encodeLoop_beyond (fuel : Nat) (hi : i < size) (he : escaped (data i) = false)
    (h : ¬ Reaches size written (peek data i (size - i))) :
    size < (encodeLoop data size (fuel + 1) i (written + 1)).seen := by
  have hr : size < (repeatCount data size (written + 1 + 1) i (data i) (126 - 32) 1).2 :=
    repeatCount_beyond hi h
  rw [encodeLoop, if_pos hi]
  simp only [he, Bool.false_eq_true, if_false]
  split <;> simp only [Enc.after] <;> omega

/-- The loop stays within the payload exactly when the tokens do, and then it writes them. -/
theorem encodeLoop_spec (fuel : Nat) (hi : i ≤ size) (hfuel : size - i ≤ fuel) :
    let ts := split size fuel (peek data i (size - i)) written
    let e := encodeLoop data size fuel i (written + 1)
    (e.seen ≤ size ↔ Inside size written ts) ∧ (e.seen ≤ size → e.bytes = ts.flatMap code) := by
  induction fuel generalizing i written with
  | zero =>
    simp [encodeLoop, split, Inside]
  | succ fuel ih =>
    rcases lt_or_ge i size with hlt | hge
    · have hl : peek data i (size - i) = data i :: _ := peek_rest hlt
      generalize peek data (i + 1) (size - (i + 1)) = l at hl
      have hlen : (data i :: l).length = size - i := by rw [← hl, peek_length]
      obtain ⟨h1, hle, -⟩ := nextTok_text size written (data i) l
      have htext := split_text size (fuel + 1) (data i :: l) written (by omega)
      have hdrop : (data i :: l).drop (nextTok size written (data i) l).text.length =
          peek data (i + (nextTok size written (data i) l).text.length)
            (size - (i + (nextTok size written (data i) l).text.length)) := by
        rw [← hl, peek_drop]
      simp only [hl, split, hdrop, Inside] at htext ⊢
      rw [htext, escapes_nextTok]
      by_cases h : escaped (data i) = false → Reaches size written (data i :: l)
      · obtain ⟨s, hs, heq⟩ := encodeLoop_succ fuel hlt hl h
        obtain ⟨ih1, ih2⟩ := @ih (i + (nextTok size written (data i) l).text.length)
          (written + (nextTok size written (data i) l).code.length) (by omega) (by omega)
        rw [heq]
        simp only [Enc.after, flatMap_cons, append_cancel_left_eq, Nat.max_le, hs, true_and]
        exact ⟨ih1.trans (and_iff_right h).symm, ih2⟩
      · obtain ⟨he, hno⟩ := Classical.not_imp.1 h
        have hbeyond := encodeLoop_beyond fuel hlt he (hl ▸ hno)
        have hgt : ¬ (encodeLoop data size (fuel + 1) i (written + 1)).seen ≤ size := by omega
        exact ⟨iff_of_false hgt fun hin => h hin.1, fun hs => absurd hs hgt⟩
    · obtain rfl : i = size := by omega
      simp [encodeLoop, split, Inside]

end Loop

/-! ## Results -/

theorem toHexBytes_eq (value : UInt8) :
    toHexBytes value = [hexDigit (value.toNat / 16), hexDigit (value.toNat % 16)] := by
  have : ∀ n : Fin 256, toHexBytes (ofFin n) = [hexDigit (n / 16), hexDigit (n % 16)] := by
    decide +kernel
  exact this value.toFin

theorem reply_bytes (data : Buf) (size : Nat) :
    (reply data size).bytes = packet (encodeBody data size).bytes := by
  simp only [reply, toHexBytes_eq]
  rfl

theorem countChar_reserved (h : k ≤ 98) (h7 : k ≠ 7) (h8 : k ≠ 8) :
    ofNat (k + 28) ∉ reserved ↔ k ≠ 15 ∧ k ≠ 17 := by
  have : ∀ k : Fin 99, k.1 ≠ 7 → k.1 ≠ 8 → (ofNat (k + 28) ∉ reserved ↔ k.1 ≠ 15 ∧ k.1 ≠ 17) := by
    decide +kernel
  exact this ⟨k, by omega⟩ h7 h8

/-- No count character of tokens is reserved exactly when no run has 15 or 17 bytes. -/
theorem counts_reserved_iff {ts : List Tok} (h : ∀ t ∈ ts, t.Ok) :
    (∀ n ∈ counts (ts.flatMap code), n ∉ reserved) ↔
      ∀ t ∈ ts, t.text.length ≠ 15 ∧ t.text.length ≠ 17 := by
  rw [counts_toks h]
  constructor
  · intro hall t ht
    cases t with
    | run c k =>
      obtain ⟨-, -, h98, h7, h8⟩ := h _ ht
      rw [text, length_replicate]
      refine (countChar_reserved h98 h7 h8).1 (hall _ ?_)
      exact mem_flatMap.2 ⟨_, ht, mem_singleton.2 rfl⟩
    | _ => simp [text]
  · intro hall n hn
    obtain ⟨t, ht, hnt⟩ := mem_flatMap.1 hn
    cases t with
    | run c k =>
      obtain ⟨-, -, h98, h7, h8⟩ := h _ ht
      obtain rfl := mem_singleton.1 hnt
      have hlen := hall _ ht
      rw [text, length_replicate] at hlen
      exact (countChar_reserved h98 h7 h8).2 hlen
    | _ => cases hnt

/-- **The encoder is right exactly for sound payloads**, for every payload and whatever lies in
memory behind it. -/
theorem reply_right_iff (data : Buf) (size : Nat) : Right data size ↔ Sound (peek data 0 size) := by
  obtain ⟨hseen, hbytes⟩ := @encodeLoop_spec data size 0 0 size (Nat.zero_le size) le_rfl
  rw [Nat.sub_zero] at hbytes
  have hok := split_ok size size (peek data 0 size) 0
  have htext := split_text size size (peek data 0 size) 0 (by rw [peek_length])
  have hlen : ∀ body, (packet body).length + 1 = body.length + 5 := by
    simp [packet]
  constructor
  · intro h
    have hb : (encodeBody data size).bytes = _ := hbytes h.inside
    have hfits := h.fits
    have hcounts := h.counts
    rw [reply_bytes, hlen, hb] at hfits
    rw [hb, counts_reserved_iff hok] at hcounts
    constructor <;> rw [peek_length]
    · exact hseen.1 h.inside
    · exact hcounts
    · exact hfits
  · rintro ⟨hin, hcounts, hfits⟩
    rw [peek_length] at hin hcounts hfits
    have hs : (encodeBody data size).seen ≤ size := hseen.2 hin
    have hb : (encodeBody data size).bytes = _ := hbytes hs
    refine ⟨?_, hs, ?_, ?_⟩
    · rw [reply_bytes, hb, decode_packet hok, htext]
    · rw [hb]
      exact (counts_reserved_iff hok).2 hcounts
    · rw [reply_bytes, hlen, hb]
      exact hfits

/-- A payload with a run of four bytes. -/
example : Sound [0x61, 0x61, 0x61, 0x61, 0x62, 0x7d, 0x64, 0x65] :=
  ⟨by decide, by decide, by decide⟩

/-- Sixteen zeros in front of more zeros are received as twenty-five. -/
theorem reads_beyond : peek (fun _ => 0x30) 0 16 = List.replicate 16 0x30 ∧
    decode (reply (fun _ => 0x30) 16).bytes = some (List.replicate 25 0x30) ∧
    16 < (reply (fun _ => 0x30) 16).seen := by
  decide +kernel

/-- The count of fifteen bytes is sent as `+`. -/
example : 0x2b ∈ counts (encodeBody (fun _ => 0x30) 17).bytes := by decide +kernel

end Dgos.L4.GdbReply
