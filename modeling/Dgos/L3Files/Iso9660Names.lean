import Dgos.Core.OrdSet
import Dgos.L3Files.Iso9660

/-!
# The name comparators of iso9660

* `nameCompare_same`: the result depends on the component only, not on where it is in memory
  and what is behind it.
* `nameCompareUtf16be_eq`: on Joliet names the comparison is that of the two lists of
  characters, the shorter one padded with 0. `compareChars_eq_zero_iff` and
  `compareChars_sign` say that it is 0 for equal lists and otherwise has the sign of the
  lexicographic order.
* `nameCompareAscii_plain`, `nameCompareAscii_file`: on ISO 9660 names nothing but blanks
  compares equal to the identifier of a directory, and nothing at all to that of a file.
-/
namespace Dgos.L3.Iso9660

open L1.Utf L1.Utf8 List Option Nat Except Bool

/-! ## Differences -/

theorem diff32_eq_zero_iff {a b : Nat} (ha : a < 2 ^ 32) (hb : b < 2 ^ 32) :
    diff32 a b = 0 ↔ a = b := by
  rw [diff32]
  omega

theorem diff32_of_lt {a b : Nat} (ha : a < 2 ^ 31) (hb : b < 2 ^ 31) :
    diff32 a b = (a : Int) - b := by
  rw [diff32]
  omega

variable {m name : Buf} {k n p nameLen chk fuel find findLen u z : Nat} {ks : List (Option Nat)}
  {limit : Option Nat} {c : UInt8}

/-- Decoded characters have 21 bits. -/
theorem utf8ToUcs4Upd_lt (h : (utf8ToUcs4Upd m p).1 = some n) : n < 2 ^ 21 := by
  refine utf8ToUcs4Upd_rec (R := fun s _ => ∀ c ∈ s.1, c < 2 ^ 21) rfl (fun _ hc => hc)
    (fun shift hle s _ hs c hc => ?_) n h
  simp only [continuation] at hc
  split at hc
  · obtain ⟨c', hc', rfl⟩ := map_eq_some_iff.1 hc
    have hbits : ((m s.2).toNat &&& 0x3F) <<< shift < 2 ^ (6 + shift) :=
      shiftLeft_lt (and_lt_two_pow _ (by decide))
    replace hbits := hbits.trans_le (Nat.pow_le_pow_right (by decide) (show 6 + shift ≤ 21 by omega))
    refine or_lt_two_pow (hs c' ?_) hbits
    split at hc'
    · cases hc'
    · exact hc'
  · cases hc

/-! ## Components in memory -/

/-- A component as a text of its own. -/
def text (piece : List UInt8) : Buf := fun i => piece.getD i 0

/-- The component at `p`, with a byte behind it that continues no UTF-8 sequence. -/
structure TextAt (m : Buf) (p : Nat) (piece : List UInt8) : Prop where
  bytes : ∀ i < piece.length, m (p + i) = piece.getD i 0
  stop : m (p + piece.length) = 0x2F ∨ m (p + piece.length) = 0

theorem TextAt.same {piece : List UInt8} (h : TextAt m p piece) :
    Same m p (text piece) 0 piece.length where
  bytes i hi := by rw [h.bytes i hi, text, zero_add]
  stop := by
    rcases h.stop with h | h <;> rw [h] <;> decide
  stop' := by
    rw [zero_add, text, getD_eq_default _ _ le_rfl]
    decide

theorem memrchr_eq_some (hk : k < n) (hc : m (p + k) = c)
    (hlast : ∀ i, k < i → i < n → m (p + i) ≠ c) : memrchr m p c n = some k := by
  refine (find?_eq_some_iff_least (fun _ _ => lt_asymm)
    (pairwise_reverse.2 pairwise_lt_range)).2 ⟨by simpa using hk, by simpa using hc, ?_⟩
  intro i hi hci hki
  exact hlast i hki (by simpa using hi) (by simpa using hci)

section Same

variable {m' : Buf} {q len : Nat}

theorem before_add (p i : Nat) (limit : Option Nat) :
    before (p + i) (limit.map (p + ·)) = before i limit := by
  cases limit with
  | none => rfl
  | some l => simp [before]

theorem memrchr_same (h : Same m p m' q len) (c : UInt8) : memrchr m p c len = memrchr m' q c len := by
  apply find?_congr
  intro i hi
  rw [mem_reverse, mem_range] at hi
  rw [h.bytes i hi]

variable {i j : Nat}

theorem memrchr_lt (h : memrchr m p c len = some i) : i < len := by
  have := mem_of_find?_eq_some h
  rwa [mem_reverse, mem_range] at this

section

variable (h : Same m p m' q len)
include h

theorem asciiKey_same (hlimit : ∀ l, limit = some l → l ≤ len)
    (hij : InStep len i j) (hbefore : before j limit = before i limit) :
    ∃ c i' j', asciiKey m (limit.map (p + ·)) (p + i) = (c, p + i') ∧
      asciiKey m' (limit.map (q + ·)) (q + j) = (c, q + j') ∧ InStep len i' j' := by
  simp only [asciiKey, before_add, hbefore]
  cases hb : before i limit with
  | false => exact ⟨some 0x20, i, j, rfl, rfl, hij⟩
  | true =>
    have hi : i < len := by
      cases limit with
      | none => cases hb
      | some l =>
        have := hlimit l rfl
        have := of_decide_eq_true hb
        omega
    obtain rfl := hij.eq hi
    obtain ⟨c, i', j', hdec, hdec', hstep, -, -⟩ := decode_same h hi
    exact ⟨c, i', j', hdec, hdec', hstep⟩

/-- A pass gives the same in both copies and ends in step. -/
theorem asciiPass_same (chk : Buf) (chkLimit : Option Nat)
    (hlimit : ∀ l, limit = some l → l ≤ len) (fuel : Nat) (hij : InStep len i j) :
    (∃ e, asciiPass chk m chkLimit (limit.map (p + ·)) fuel (p + i) = .error e ∧
      asciiPass chk m' chkLimit (limit.map (q + ·)) fuel (q + j) = .error e) ∨
    ∃ c i' j', asciiPass chk m chkLimit (limit.map (p + ·)) fuel (p + i) = .ok (c, p + i') ∧
      asciiPass chk m' chkLimit (limit.map (q + ·)) fuel (q + j) = .ok (c, q + j') ∧
      InStep len i' j' := by
  induction fuel generalizing i j with
  | zero => exact .inl ⟨.hang, rfl, rfl⟩
  | succ fuel ih =>
    have hbefore : before j limit = before i limit := by
      cases limit with
      | none => rfl
      | some l =>
        have := hlimit l rfl
        rcases hij with rfl | ⟨hi, hj⟩
        · rfl
        · simp only [before]
          rw [decide_eq_false (by omega), decide_eq_false (by omega)]
    obtain ⟨c, i', j', hkey, hkey', hstep⟩ := asciiKey_same h hlimit hij hbefore
    simp only [asciiPass, before_add, hbefore, hkey, hkey']
    by_cases hmore : before i limit = true ∨ before 0 chkLimit = true
    · rw [if_pos hmore, if_pos hmore]
      by_cases hcmp : diff32 (asciiChk chk chkLimit) (char32 c) ≠ 0
      · rw [if_pos hcmp, if_pos hcmp]
        exact .inr ⟨_, i', j', rfl, rfl, hstep⟩
      · rw [if_neg hcmp, if_neg hcmp]
        exact ih hstep
    · rw [if_neg hmore, if_neg hmore]
      exact .inr ⟨0, i, j, rfl, rfl, hij⟩

theorem nameCompareAscii_same (name : Buf) (nameLen : Nat) :
    nameCompareAscii name nameLen m p len = nameCompareAscii name nameLen m' q len := by
  have hlimit : ∀ l, memrchr m' q 0x2E len = some l → l ≤ len := fun l hl =>
    le_of_lt (memrchr_lt hl)
  have hfirst := asciiPass_same h name (memrchr name 0 0x2E nameLen) hlimit (len + 1)
    (.inl (Eq.refl 0))
  simp only [add_zero] at hfirst
  rw [nameCompareAscii, nameCompareAscii, memrchr_same h]
  rcases hfirst with ⟨e, herr, herr'⟩ | ⟨c, i, j, hok, hok', hstep⟩
  · rw [herr, herr']
    rfl
  rw [ok_bind hok, ok_bind hok']
  by_cases hc : c ≠ 0
  · simp [if_pos hc]
  have hsecond := asciiPass_same h name (memrchr name 0 0x3B nameLen)
    (fun l (hl : some len = some l) => le_of_eq (some.inj hl).symm) (len + 1) hstep
  simp only [map_some] at hsecond
  simp only [if_neg hc]
  rcases hsecond with ⟨e, herr, herr'⟩ | ⟨c', i', j', hok, hok', -⟩
  · rw [herr, herr']
  · rw [ok_bind hok, ok_bind hok']

theorem utf16beLoop_same (name : Buf) (chkEnd fuel : Nat) (hij : InStep len i j) (chk : Nat) :
    utf16beLoop name m chkEnd (p + len) fuel (p + i) chk =
      utf16beLoop name m' chkEnd (q + len) fuel (q + j) chk := by
  induction fuel generalizing i j chk with
  | zero => rfl
  | succ fuel ih =>
    have hlt : ∀ a b c : Nat, (a + b < a + c) = (b < c) := fun a b c =>
      propext (Nat.add_lt_add_iff_left)
    simp only [utf16beLoop, hlt]
    by_cases hi : i < len
    · obtain rfl := hij.eq hi
      obtain ⟨c, i', j', hdec, hdec', hstep, -, -⟩ := decode_same h hi
      simp [if_pos hi, hdec, hdec', ih hstep]
    · have hj : ¬ j < len := fun hj => hi (hij.lt_iff.mpr hj)
      simp [hi, hj, ih hij]

theorem nameCompareUtf16be_same (name : Buf) (nameLen : Nat) :
    nameCompareUtf16be name nameLen m p len = nameCompareUtf16be name nameLen m' q len :=
  utf16beLoop_same h name (nameLen / 2) (len + nameLen + 1) (.inl (Eq.refl 0)) 0

theorem nameCompare_same (fs : Fs) (name : Buf) (nameLen : Nat) :
    fs.nameCompare name nameLen m p len = fs.nameCompare name nameLen m' q len := by
  rw [Fs.nameCompare]
  split
  · exact nameCompareUtf16be_same h name nameLen
  · exact nameCompareAscii_same h name nameLen

end

end Same

/-! ## Joliet names -/

/-- Word `k` of a name as a character. -/
def unit (name : Buf) (k : Nat) : Nat := 2 ^ 8 * (name (2 * k)).toNat + (name (2 * k + 1)).toNat

def units (name : Buf) (nameLen : Nat) : List Nat := (List.range (nameLen / 2)).map (unit name)

/-- The characters of a Joliet identifier (UCS-2). The names of the directory itself and of its
parent have one byte, which is no character. -/
def JolietId (name : Buf) (nameLen : Nat) : Prop :=
  ∀ u ∈ units name nameLen, 0x20 ≤ u ∧ (u < 0xD800 ∨ 0xDFFF < u)

theorem ntohs_word (name : Buf) (k : Nat) : ntohs (word name k) = unit name k := by
  have h1 := (name (2 * k)).toNat_lt
  rw [ntohs, word, unit]
  omega

/-- The comparison of two lists of characters, the shorter one padded with 0. -/
def compareChars : List (Option Nat) → List Nat → Int
  | [], [] => 0
  | [], u :: us => if diff32 0 u = 0 then compareChars [] us else diff32 0 u
  | k :: ks, us =>
    if diff32 (char32 k) (us.headD 0) = 0 then compareChars ks us.tail
    else diff32 (char32 k) (us.headD 0)

theorem drop_units (h : chk < nameLen / 2) :
    (units name nameLen).drop chk = unit name chk :: (units name nameLen).drop (chk + 1) := by
  have hlen : chk < (units name nameLen).length := by
    rw [units, length_map, length_range]
    exact h
  rw [drop_eq_getElem_cons hlen]
  simp [units]

theorem drop_units_nil (h : nameLen / 2 ≤ chk) : (units name nameLen).drop chk = [] := by
  apply drop_eq_nil_of_le
  rw [units, length_map, length_range]
  exact h

theorem JolietId.at (h : JolietId name nameLen)
    (hchk : chk < nameLen / 2) : utf16beAt name chk = (unit name chk, chk + 1) := by
  obtain ⟨h0, hs⟩ := h (unit name chk) (mem_map.mpr ⟨chk, mem_range.mpr hchk, rfl⟩)
  simp only [utf16beAt, utf16beToUcs4, ntohs_word, if_pos hs,
    if_pos (show unit name chk ≠ 0 by omega)]
  rfl

/-- The loop from any place on compares what is left. -/
theorem utf16beLoop_eq {findEnd : Nat} (hid : JolietId name nameLen)
    (hfuel : findEnd - find + (nameLen / 2 - chk) < fuel) :
    utf16beLoop name m (nameLen / 2) findEnd fuel find chk =
      .ok (compareChars (points m findEnd (findEnd - find) find)
        ((units name nameLen).drop chk)) := by
  induction fuel generalizing find chk with
  | zero => omega
  | succ fuel ih =>
    have hlt := lt_utf8ToUcs4Upd m find
    rw [utf16beLoop]
    by_cases hf : find < findEnd
    · rw [points_cons hf, compareChars]
      by_cases hc : chk < nameLen / 2
      · simp only [if_pos (Or.inl hf), if_pos hf, if_pos hc, hid.at hc, drop_units hc,
          headD_cons, tail_cons]
        split
        · exact ih (by omega)
        · rfl
      · have hnil : (units name nameLen).drop chk = [] := drop_units_nil (le_of_not_gt hc)
        simp only [if_pos (Or.inl hf), if_pos hf, if_neg hc, hnil, headD_nil, tail_nil]
        split
        · rw [ih (by omega), hnil]
        · rfl
    · have hpoints := points_nil (m := m) (le_of_not_gt hf)
      rw [hpoints]
      by_cases hc : chk < nameLen / 2
      · simp only [if_pos (Or.inr hc), if_neg hf, if_pos hc, hid.at hc, drop_units hc]
        rw [compareChars, show char32 (some 0) = 0 from rfl]
        split
        · rw [ih (by omega), hpoints]
        · rfl
      · rw [if_neg (by omega), drop_units_nil (le_of_not_gt hc), compareChars]

theorem nameCompareUtf16be_eq (hid : JolietId name nameLen) :
    nameCompareUtf16be name nameLen m find findLen =
      .ok (compareChars (points m (find + findLen) findLen find) (units name nameLen)) := by
  rw [nameCompareUtf16be, utf16beLoop_eq hid (by omega), Nat.add_sub_cancel_left, drop_zero]

/-- The characters of a component. -/
def pieceChars (piece : List UInt8) : List (Option Nat) :=
  points (text piece) piece.length piece.length 0

theorem nameCompareUtf16be_text (hid : JolietId name nameLen) (piece : List UInt8) :
    nameCompareUtf16be name nameLen (text piece) 0 piece.length =
      .ok (compareChars (pieceChars piece) (units name nameLen)) := by
  rw [nameCompareUtf16be_eq hid, zero_add, pieceChars]

/-- Without the zeros at the end. A zero inside a component can only be an overlong one. -/
def trimZeros : List (Option Nat) → List (Option Nat)
  | [] => []
  | k :: ks => if trimZeros ks = [] ∧ k = some 0 then [] else k :: trimZeros ks

/-- A list of decoded characters. -/
def Decoded (ks : List (Option Nat)) : Prop := ∀ k ∈ ks, ∀ n, k = some n → n < 2 ^ 21

theorem decoded_points (m : Buf) (e fuel p : Nat) : Decoded (points m e fuel p) := by
  induction fuel generalizing p with
  | zero => exact forall_mem_nil _
  | succ fuel ih =>
    rw [points]
    split
    · exact forall_mem_cons.2 ⟨fun n hn => utf8ToUcs4Upd_lt hn, ih _⟩
    · exact forall_mem_nil _

theorem diff32_char32 {k : Option Nat} (hk : ∀ n, k = some n → n < 2 ^ 21)
    (hu : u < 2 ^ 16) : diff32 (char32 k) u = 0 ↔ k = some u := by
  cases k with
  | none =>
    rw [char32, getD_none, diff32_eq_zero_iff (by decide) (by omega)]
    exact ⟨fun h => by omega, fun h => by cases h⟩
  | some n =>
    have := hk n rfl
    rw [char32, getD_some, diff32_eq_zero_iff (by omega) (by omega), some.injEq]

/-- The words of a name: 16 bits, and no 0 among them. -/
def Words (us : List Nat) : Prop := ∀ u ∈ us, u ≠ 0 ∧ u < 2 ^ 16

theorem JolietId.words (h : JolietId name nameLen) : Words (units name nameLen) := by
  intro u hu
  refine ⟨by have := (h u hu).1; omega, ?_⟩
  obtain ⟨k, -, rfl⟩ := mem_map.mp hu
  have h1 := (name (2 * k)).toNat_lt
  have h2 := (name (2 * k + 1)).toNat_lt
  rw [unit]
  omega

theorem trimZeros_cons_eq_nil {k : Option Nat} :
    trimZeros (k :: ks) = [] ↔ k = some 0 ∧ trimZeros ks = [] := by
  rw [trimZeros]
  split
  · next h => exact iff_of_true rfl ⟨h.2, h.1⟩
  · next h => exact iff_of_false (cons_ne_nil _ _) fun h' => h ⟨h'.2, h'.1⟩

theorem trimZeros_cons_eq_cons {k : Option Nat} {us : List (Option Nat)} (hu : u ≠ 0) :
    trimZeros (k :: ks) = some u :: us ↔ k = some u ∧ trimZeros ks = us := by
  rw [trimZeros]
  split
  · next h =>
    refine iff_of_false (cons_ne_nil _ _).symm fun h' => hu ?_
    exact some.inj (h'.1.symm.trans h.2)
  · rw [List.cons.injEq]

theorem pieceChars_append_nul (name junk : List UInt8) :
    ∃ ks, pieceChars (name ++ 0 :: junk) = pieceChars name ++ some 0 :: ks ∧
      (junk = [] → ks = []) := by
  have hz : text (name ++ 0 :: junk) name.length = 0 := by
    rw [text, getD_append_right _ _ _ _ (Nat.le_refl _), Nat.sub_self]
    rfl
  have hlen : (name ++ 0 :: junk).length = name.length + 1 + junk.length := by
    rw [length_append, length_cons]
    omega
  have hsame : TextAt (text (name ++ 0 :: junk)) 0 name := by
    refine ⟨fun i hi => ?_, .inr (by rw [zero_add]; exact hz)⟩
    rw [zero_add, text, getD_append _ _ _ _ hi]
  have hpoints := points_same hsame.same name.length (.inl (Eq.refl 0))
  simp only [zero_add] at hpoints
  have happend := points_append_nul (e := (name ++ 0 :: junk).length) hz (zero_le _) (by omega)
  rw [Nat.sub_zero, Nat.sub_zero, hpoints] at happend
  refine ⟨_, happend, fun hjunk => points_nil ?_ _⟩
  subst hjunk
  rw [hlen]
  exact le_rfl

theorem trimZeros_append_zero (ks : List (Option Nat)) :
    trimZeros (ks ++ [some 0]) = trimZeros ks := by
  induction ks with
  | nil => rfl
  | cons k ks ih => rw [cons_append, trimZeros, trimZeros, ih]

/-- What stands behind a zero is no part of a name. -/
theorem trimZeros_of_append {ks' : List (Option Nat)} {us : List Nat} (hus : Words us)
    (h : trimZeros (ks ++ some 0 :: ks') = us.map some) : trimZeros ks = us.map some := by
  induction ks generalizing us with
  | nil =>
    cases us with
    | nil => rfl
    | cons u us =>
      have hu := (hus u mem_cons_self).1
      exact absurd (some.inj ((trimZeros_cons_eq_cons hu).mp h).1).symm hu
  | cons k ks ih =>
    cases us with
    | nil =>
      obtain ⟨hk, hrest⟩ := trimZeros_cons_eq_nil.mp h
      exact trimZeros_cons_eq_nil.mpr ⟨hk, ih hus hrest⟩
    | cons u us =>
      have hu := (hus u mem_cons_self).1
      obtain ⟨hk, hrest⟩ := (trimZeros_cons_eq_cons hu).mp h
      exact (trimZeros_cons_eq_cons hu).mpr
        ⟨hk, ih (fun u hu => hus u (mem_cons_of_mem _ hu)) hrest⟩

section CompareChars

variable {us ws : List Nat}

theorem compareChars_eq_zero_iff (hks : Decoded ks) (hus : Words us) :
    compareChars ks us = 0 ↔ trimZeros ks = us.map some := by
  induction ks generalizing us with
  | nil =>
    cases us with
    | nil => exact iff_of_true (by rw [compareChars]) rfl
    | cons u us =>
      have hu := hus u mem_cons_self
      have hne : diff32 0 u ≠ 0 := by
        rw [Ne, diff32_eq_zero_iff (by decide) (by omega)]
        exact hu.1.symm
      rw [compareChars, if_neg hne]
      exact iff_of_false hne (cons_ne_nil _ _).symm
  | cons k ks ih =>
    have hk := hks k mem_cons_self
    have hrest : Decoded ks := fun k hk => hks k (mem_cons_of_mem _ hk)
    cases us with
    | nil =>
      rw [compareChars, headD_nil, tail_nil, map_nil, trimZeros_cons_eq_nil]
      by_cases h0 : diff32 (char32 k) 0 = 0
      · rw [if_pos h0, ih hrest hus, map_nil, and_iff_right ((diff32_char32 hk (by decide)).mp h0)]
      · rw [if_neg h0]
        exact iff_of_false h0 fun h => h0 ((diff32_char32 hk (by decide)).mpr h.1)
    | cons u us =>
      have hu := hus u mem_cons_self
      have hus' : Words us := fun u hu => hus u (mem_cons_of_mem _ hu)
      rw [compareChars, headD_cons, tail_cons, map_cons, trimZeros_cons_eq_cons hu.1]
      by_cases h0 : diff32 (char32 k) u = 0
      · rw [if_pos h0, ih hrest hus', and_iff_right ((diff32_char32 hk hu.2).mp h0)]
      · rw [if_neg h0]
        exact iff_of_false h0 fun h => h0 ((diff32_char32 hk hu.2).mpr h.1)

theorem compareChars_sign (hus : Words us) (hws : Words ws) (h : trimZeros ks = us.map some) :
    (ws < us → 0 < compareChars ks ws) ∧ (us < ws → compareChars ks ws < 0) := by
  induction ks generalizing us ws with
  | nil =>
    obtain rfl : us = [] := map_eq_nil_iff.mp h.symm
    refine ⟨fun hlt => absurd hlt (not_lt_nil ws), fun hlt => ?_⟩
    cases ws with
    | nil => exact absurd hlt (not_lt_nil [])
    | cons w ws =>
      have hw := hws w mem_cons_self
      rw [compareChars, diff32_of_lt (by decide) (by omega)]
      omega
  | cons k ks ih =>
    cases us with
    | nil =>
      obtain ⟨rfl, -⟩ := trimZeros_cons_eq_nil.mp h
      refine ⟨fun hlt => absurd hlt (not_lt_nil ws), fun hlt => ?_⟩
      cases ws with
      | nil => exact absurd hlt (not_lt_nil [])
      | cons w ws =>
        have hw := hws w mem_cons_self
        rw [compareChars, headD_cons, show char32 (some 0) = 0 from rfl,
          diff32_of_lt (by decide) (by omega)]
        omega
    | cons u us =>
      have hu := hus u mem_cons_self
      obtain ⟨rfl, htail⟩ := (trimZeros_cons_eq_cons hu.1).mp h
      rw [compareChars, show char32 (some u) = u from rfl]
      cases ws with
      | nil =>
        rw [headD_nil, diff32_of_lt (by omega) (by decide)]
        exact ⟨fun _ => by omega, fun hlt => absurd hlt (not_lt_nil _)⟩
      | cons w ws =>
        have hw := hws w mem_cons_self
        rw [headD_cons, diff32_of_lt (by omega) (by omega), cons_lt_cons_iff, cons_lt_cons_iff]
        by_cases heq : u = w
        · subst heq
          rw [if_pos (by omega)]
          have hrest := ih (fun u hu => hus u (mem_cons_of_mem _ hu))
            (fun w hw => hws w (mem_cons_of_mem _ hw)) htail
          constructor
          · intro hlt
            exact hrest.1 (hlt.resolve_left (lt_irrefl u)).2
          · intro hlt
            exact hrest.2 (hlt.resolve_left (lt_irrefl u)).2
        · constructor
          · omega
          · omega

end CompareChars

/-! ## ISO 9660 names -/

/-- Nothing but blanks: what compares equal to an identifier without characters. -/
def Blank (piece : List UInt8) : Prop :=
  nameCompareAscii (fun _ => 0) 0 (text piece) 0 piece.length = .ok 0

instance (piece : List UInt8) : Decidable (Blank piece) := by
  unfold Blank
  infer_instance

theorem asciiPass_plain (chk chk' m : Buf) (limit : Option Nat) (fuel find : Nat) :
    asciiPass chk m none limit fuel find = asciiPass chk' m none limit fuel find := by
  induction fuel generalizing find with
  | zero => rfl
  | succ fuel ih => simp [asciiPass, asciiChk, before, ih]

/-- A name without `.` and `;` is compared as if it were empty. -/
theorem nameCompareAscii_plain (hdot : memrchr name 0 0x2E nameLen = none)
    (hsemi : memrchr name 0 0x3B nameLen = none) (m : Buf) (find findLen : Nat) :
    nameCompareAscii name nameLen m find findLen =
      nameCompareAscii (fun _ => 0) 0 m find findLen := by
  simp [nameCompareAscii, hdot, hsemi, show ∀ c, memrchr (fun _ => 0) 0 c 0 = none from fun _ => rfl,
    asciiPass_plain name (fun _ => 0)]

/-- A pass ends, unless the name begins with a blank. Where the name is not empty the pass finds
a difference, because `chk` does not move. -/
theorem asciiPass_ends {chk : Buf} {chkLimit : Option Nat}
    (hchk : before 0 chkLimit = true → char32OfChar (chk 0) ≠ 0x20) (m : Buf)
    (limit : Option Nat) (find : Nat) (hfuel : limit.getD 0 - find < fuel) :
    ∃ c find', asciiPass chk m chkLimit limit fuel find = .ok (c, find') ∧ find ≤ find' ∧
      (before 0 chkLimit = true → c ≠ 0) := by
  induction fuel generalizing find with
  | zero => omega
  | succ fuel ih =>
    have hlt := lt_utf8ToUcs4Upd m find
    rw [asciiPass]
    by_cases hmore : before find limit = true ∨ before 0 chkLimit = true
    · rw [if_pos hmore]
      simp only
      cases hb : before find limit with
      | true =>
        have hkey : asciiKey m limit find = utf8ToUcs4Upd m find := by rw [asciiKey, if_pos hb]
        rw [hkey]
        split
        · next hcmp => exact ⟨_, _, rfl, by omega, fun _ => hcmp⟩
        have hfind : find < limit.getD 0 := by
          cases limit with
          | none => cases hb
          | some l => exact of_decide_eq_true hb
        obtain ⟨c, find', hok, hle, hc⟩ := ih (utf8ToUcs4Upd m find).2 (by omega)
        exact ⟨c, find', hok, by omega, hc⟩
      | false =>
        -- the component is at its end, and its padding is not what the name begins with
        have hchk' := hmore.resolve_left (by rw [hb]; exact false_ne_true)
        have hkey : asciiKey m limit find = (some 0x20, find) := by
          rw [asciiKey, if_neg (by rw [hb]; exact false_ne_true)]
        have hcmp : diff32 (asciiChk chk chkLimit) (char32 (some 0x20)) ≠ 0 := by
          have hlt : char32OfChar (chk 0) < 2 ^ 32 := by
            have := (chk 0).toNat_lt
            rw [char32OfChar]
            split <;> omega
          rw [asciiChk, if_pos hchk', Ne, diff32_eq_zero_iff hlt (by decide)]
          exact hchk hchk'
        rw [hkey, if_pos hcmp]
        exact ⟨_, _, rfl, le_rfl, fun _ => hcmp⟩
    · rw [if_neg hmore]
      exact ⟨0, find, rfl, le_rfl, fun h => absurd (.inr h) hmore⟩

theorem getD_memrchr_le (m : Buf) (p : Nat) (c : UInt8) (n : Nat) :
    ((memrchr m p c n).map (p + ·)).getD 0 ≤ p + n := by
  cases h : memrchr m p c n with
  | none => exact zero_le _
  | some i =>
    have := memrchr_lt h
    simp only [map_some, getD_some]
    omega

/-- Two passes over a name that does not begin with a blank; the second one finds a difference
if there is a `;` behind the start. -/
theorem nameCompareAscii_ends (hname : before 0 (memrchr name 0 0x2E nameLen) = true ∨
      before 0 (memrchr name 0 0x3B nameLen) = true → char32OfChar (name 0) ≠ 0x20)
    (m : Buf) (find findLen : Nat) :
    ∃ c, nameCompareAscii name nameLen m find findLen = .ok c ∧
      (before 0 (memrchr name 0 0x3B nameLen) = true → c ≠ 0) := by
  have hlimit := getD_memrchr_le m find 0x2E findLen
  have hfuel : ((memrchr m find 0x2E findLen).map (find + ·)).getD 0 - find < findLen + 1 := by
    omega
  obtain ⟨c, find', hok, hle, -⟩ := asciiPass_ends (fun h => hname (.inl h)) m _ find hfuel
  have hfuel' : (some (find + findLen)).getD 0 - find' < findLen + 1 := by
    rw [getD_some]
    omega
  obtain ⟨c', find'', hok', -, hc'⟩ := asciiPass_ends (fun h => hname (.inr h)) m _ find' hfuel'
  rw [nameCompareAscii, ok_bind hok]
  simp only
  split
  · next hc => exact ⟨c, rfl, fun _ => hc⟩
  · rw [ok_bind hok']
    exact ⟨c', rfl, hc'⟩

theorem nameCompareAscii_empty (m : Buf) (find findLen : Nat) :
    ∃ c, nameCompareAscii (fun _ => 0) 0 m find findLen = .ok c := by
  obtain ⟨c, hc, -⟩ := nameCompareAscii_ends
    (fun h : before 0 (memrchr (fun _ => 0) 0 0x2E 0) = true ∨ _ =>
      absurd h (by exact not_or.mpr ⟨false_ne_true, false_ne_true⟩))
    m find findLen
  exact ⟨c, hc⟩

theorem nameCompareAscii_file {i : Nat} (hname : char32OfChar (name 0) ≠ 0x20)
    (hsemi : memrchr name 0 0x3B nameLen = some (i + 1)) (m : Buf) (find findLen : Nat) :
    ∃ c, nameCompareAscii name nameLen m find findLen = .ok c ∧ c ≠ 0 := by
  obtain ⟨c, hok, hc⟩ := nameCompareAscii_ends (fun _ => hname) m find findLen
  exact ⟨c, hok, hc (by rw [hsemi]; exact decide_eq_true (succ_pos i))⟩

theorem asciiPass_nul {chk : Buf} (hz : m z = 0) (hfind : find ≤ z)
    {c : Int} {find' : Nat} (h : asciiPass chk m none limit fuel find = .ok (c, find')) :
    c ≠ 0 ∨ find' ≤ z ∧ limit.getD 0 ≤ z := by
  induction fuel generalizing find with
  | zero => cases h
  | succ fuel ih =>
    simp only [asciiPass] at h
    by_cases hb : before find limit = true
    · rw [if_pos (.inl hb), asciiKey, if_pos hb] at h
      split at h
      · next hcmp =>
        have hc : _ = c := congrArg Prod.fst (ok.inj h)
        exact .inl (hc ▸ hcmp)
      · next hcmp =>
        rcases lt_or_eq_of_le hfind with hlt | rfl
        · exact ih (utf8ToUcs4Upd_le_nul hz hlt) h
        · rw [utf8ToUcs4Upd_nul hz] at hcmp
          exact absurd (show diff32 0x20 0 ≠ 0 by decide) hcmp
    · rw [if_neg (fun h => h.elim hb false_ne_true)] at h
      have h := congrArg Prod.snd (ok.inj h)
      refine .inr ⟨by omega, ?_⟩
      cases limit with
      | none => exact zero_le z
      | some l =>
        have : ¬ find < l := fun hlt => hb (decide_eq_true hlt)
        rw [getD_some]
        omega

/-- A component with a terminator in it is not blank. -/
theorem nameCompareAscii_nul (hz : m z = 0) (hfind : find ≤ z)
    (hlt : z < find + findLen) : nameCompareAscii (fun _ => 0) 0 m find findLen ≠ .ok 0 := by
  intro h
  obtain ⟨⟨c, find'⟩, hfirst, h⟩ := bind_eq_ok h
  simp only at h
  split at h
  · next hc => exact hc (ok.inj h)
  · next hc =>
    obtain ⟨⟨c', find''⟩, hsecond, h⟩ := bind_eq_ok h
    have hfind' := (asciiPass_nul hz hfind hfirst).resolve_left hc
    rcases asciiPass_nul hz hfind'.1 hsecond with hne | ⟨-, hle⟩
    · exact hne (ok.inj h)
    · rw [getD_some] at hle
      omega

end Dgos.L3.Iso9660
