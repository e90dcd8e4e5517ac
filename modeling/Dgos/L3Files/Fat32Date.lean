import Dgos.L3Files.Fat32Dir

/-!
# Dates of directory entries (kernel/fs/fat32/fat32.cc)

`date_encode` packs a time of day into the date, the time and the centiseconds of a directory
entry, and `date_decode` unpacks them. The time counts two-second steps; an odd second is 100 of
the centiseconds, so that these go up to 199.

`date_decode` takes the odd second off only from more than 100 centiseconds.

Results:
* `dateEncode_eq`, `date_stamp`, `time_stamp`: the fields as numbers, without the bits.
* `date_right_iff`: a time that FAT can represent comes back exactly when it is not the beginning
  of an odd second.
-/
namespace Dgos.L3.Fat32

open Nat

/-- mirrors lib/time.h:6-19 -/
@[ext] structure TimeOfDay where
  centisec : UInt8
  second : UInt8
  minute : UInt8
  hour : UInt8
  day : UInt8
  month : UInt8
  year : UInt8
  century : UInt8
  deriving DecidableEq, Repr

def TimeOfDay.fullYear (t : TimeOfDay) : Nat := t.century.toNat * 100 + t.year.toNat

/-- `count` bits of a word. -/
def dateBits (word bit count : Nat) : Nat := word >>> bit &&& 2 ^ count - 1

/-- mirrors fat32_decl.h:63-68 -/
def fatDateDay (date : Nat) : Nat := dateBits date 0 5
def fatDateMonth (date : Nat) : Nat := dateBits date 5 4
def fatDateYear (date : Nat) : Nat := dateBits date 9 7 + 1980

/-- mirrors fat32_decl.h:70-75 -/
def fatTimeSec (time : Nat) : Nat := dateBits time 0 5 * 2
def fatTimeMin (time : Nat) : Nat := dateBits time 5 6
def fatTimeHour (time : Nat) : Nat := dateBits time 11 5

/-- mirrors fat32.cc:1064-1087 -/
def dateDecode (s : Stamp) : TimeOfDay :=
  let y := fatDateYear s.date
  let c := s.centisec.toNat
  { century := .ofNat (y / 100)
    year := .ofNat (y % 100)
    month := .ofNat (fatDateMonth s.date)
    day := .ofNat (fatDateDay s.date)
    hour := .ofNat (fatTimeHour s.time)
    minute := .ofNat (fatTimeMin s.time)
    second := .ofNat (if 100 < c then fatTimeSec s.time + 1 else fatTimeSec s.time)
    centisec := .ofNat (if 100 < c then c - 100 else c) }

/-- mirrors fat32.cc:1089-1110 -/
def dateEncode (t : TimeOfDay) : Except Err Stamp :=
  if (1 ≤ t.month.toNat ∧ t.month.toNat ≤ 12) ∧ (1 ≤ t.day.toNat ∧ t.day.toNat ≤ 31) ∧
      t.hour.toNat ≤ 23 ∧ t.minute.toNat ≤ 59 ∧ t.second.toNat ≤ 59 then
    .ok {
      date := ((t.fullYear + 2 ^ 32 - 1980) <<< 9 ||| t.month.toNat <<< 5 ||| t.day.toNat) % 2 ^ 16
      time := (t.hour.toNat <<< 11 ||| t.minute.toNat <<< 5 ||| t.second.toNat >>> 1) % 2 ^ 16
      centisec := .ofNat (t.centisec.toNat + 100 * (t.second.toNat &&& 1)) }
  else .error .assertion

/-- A time from 1980 to 2107. -/
structure Timestamp where
  tod : TimeOfDay
  year_lt : tod.year.toNat < 100
  century : 1980 ≤ tod.fullYear ∧ tod.fullYear ≤ 2107
  month : 1 ≤ tod.month.toNat ∧ tod.month.toNat ≤ 12
  day : 1 ≤ tod.day.toNat ∧ tod.day.toNat ≤ 31
  hour : tod.hour.toNat ≤ 23
  minute : tod.minute.toNat ≤ 59
  second : tod.second.toNat ≤ 59
  centisec : tod.centisec.toNat < 100

open Timestamp

/-- The fields that the format allows. -/
structure Stamp.InFormat (s : Stamp) : Prop where
  date_lt : s.date < 2 ^ 16
  month : 1 ≤ fatDateMonth s.date ∧ fatDateMonth s.date ≤ 12
  day : 1 ≤ fatDateDay s.date
  time_lt : s.time < 2 ^ 16
  hour : fatTimeHour s.time ≤ 23
  minute : fatTimeMin s.time ≤ 59
  second : fatTimeSec s.time ≤ 58
  centisec : s.centisec.toNat < 200

/-- Encoding makes fields that the format allows, and decoding them gives the time back. -/
def DateRight (t : Timestamp) : Prop :=
  ∃ s, dateEncode t.tod = .ok s ∧ s.InFormat ∧ dateDecode s = t.tod

/-! ## The bits -/

theorem dateBits_eq (word bit count : Nat) :
    dateBits word bit count = word / 2 ^ bit % 2 ^ count := by
  rw [dateBits, and_two_pow_sub_one_eq_mod, shiftRight_eq_div_pow]

theorem pack_eq {a b c j k : Nat} (hc : c < 2 ^ j) (hb : b < 2 ^ k) :
    a <<< (k + j) ||| b <<< j ||| c = (a * 2 ^ k + b) * 2 ^ j + c := by
  have hab : a <<< (k + j) ||| b <<< j = (a * 2 ^ k + b) <<< j := by
    rw [shiftLeft_add, ← shiftLeft_or_distrib, ← shiftLeft_add_eq_or_of_lt hb, shiftLeft_eq a]
  rw [hab, ← shiftLeft_add_eq_or_of_lt hc, shiftLeft_eq]

/-! ## The round trip -/

/-- What `date_encode` makes of a time that FAT can represent. -/
def Timestamp.stamp (t : Timestamp) : Stamp where
  date := ((t.tod.fullYear - 1980) * 2 ^ 4 + t.tod.month.toNat) * 2 ^ 5 + t.tod.day.toNat
  time := (t.tod.hour.toNat * 2 ^ 6 + t.tod.minute.toNat) * 2 ^ 5 + t.tod.second.toNat / 2
  centisec := .ofNat (t.tod.centisec.toNat + 100 * (t.tod.second.toNat % 2))

theorem dateEncode_eq (t : Timestamp) : dateEncode t.tod = .ok t.stamp := by
  obtain ⟨t, -, hyear, hmonth, hday, hhour, hmin, hsec, -⟩ := t
  simp only [dateEncode, stamp]
  rw [if_pos ⟨hmonth, hday, hhour, hmin, hsec⟩, pack_eq (k := 4) (j := 5) (by omega) (by omega),
    shiftRight_eq_div_pow, pack_eq (k := 6) (j := 5) (by omega) (by omega), and_one_is_mod]
  congr 2 <;> omega

theorem stamp_centisec (t : Timestamp) :
    t.stamp.centisec.toNat = t.tod.centisec.toNat + 100 * (t.tod.second.toNat % 2) := by
  have := t.centisec
  rw [stamp, UInt8.toNat_ofNat']
  omega

theorem date_stamp (t : Timestamp) : fatDateYear t.stamp.date = t.tod.fullYear ∧
    fatDateMonth t.stamp.date = t.tod.month.toNat ∧ fatDateDay t.stamp.date = t.tod.day.toNat := by
  obtain ⟨t, -, hyear, hmonth, hday, -⟩ := t
  simp only [stamp, fatDateYear, fatDateMonth, fatDateDay, dateBits_eq]
  omega

theorem time_stamp (t : Timestamp) : fatTimeHour t.stamp.time = t.tod.hour.toNat ∧
    fatTimeMin t.stamp.time = t.tod.minute.toNat ∧
    fatTimeSec t.stamp.time = t.tod.second.toNat / 2 * 2 := by
  obtain ⟨t, -, -, -, -, hhour, hmin, hsec, -⟩ := t
  simp only [stamp, fatTimeHour, fatTimeMin, fatTimeSec, dateBits_eq]
  omega

theorem inFormat_stamp (t : Timestamp) : t.stamp.InFormat := by
  obtain ⟨-, hm, hd⟩ := date_stamp t
  obtain ⟨hh, hmin, hs⟩ := time_stamp t
  have hlt : t.stamp.date < 2 ^ 16 ∧ t.stamp.time < 2 ^ 16 := by
    obtain ⟨t, -, hyear, hmonth, hday, hhour, hmin, hsec, -⟩ := t
    simp only [stamp]
    omega
  have hsec := t.second
  have hcs := t.centisec
  exact ⟨hlt.1, hm ▸ t.month, hd ▸ t.day.1, hlt.2, hh ▸ t.hour, hmin ▸ t.minute, by omega,
    by rw [stamp_centisec]; omega⟩

/-- More than 100 centiseconds are an odd second, but exactly 100 are not. -/
theorem dateDecode_stamp (t : Timestamp) : dateDecode t.stamp = t.tod ↔
    ¬ (t.tod.second.toNat % 2 = 1 ∧ t.tod.centisec = 0) := by
  have hyear := t.year_lt
  have hsec := t.second
  have hcs := t.centisec
  obtain ⟨hy, hm, hd⟩ := date_stamp t
  obtain ⟨hh, hmin, hs⟩ := time_stamp t
  have h1 : t.tod.fullYear / 100 = t.tod.century.toNat := by rw [TimeOfDay.fullYear]; omega
  have h2 : t.tod.fullYear % 100 = t.tod.year.toNat := by rw [TimeOfDay.fullYear]; omega
  simp only [dateDecode, stamp_centisec, hy, hm, hd, hh, hmin, hs, h1, h2, TimeOfDay.ext_iff,
    UInt8.ofNat_toNat, and_true, ← UInt8.toNat_inj, UInt8.toNat_ofNat', UInt8.toNat_zero]
  obtain heven | hodd := mod_two_eq_zero_or_one t.tod.second.toNat
  · rw [heven, if_neg (by omega), if_neg (by omega)]
    omega
  · split <;> omega

/-- **Round trip of dates.** A time from 1980 to 2107 is encoded in fields that the format allows
and decoded to the same time, exactly when it is not the beginning of an odd second. -/
theorem date_right_iff (t : Timestamp) :
    DateRight t ↔ ¬ (t.tod.second.toNat % 2 = 1 ∧ t.tod.centisec = 0) := by
  rw [← dateDecode_stamp]
  constructor
  · rintro ⟨s, hs, -, hd⟩
    cases (dateEncode_eq t).symm.trans hs
    exact hd
  · exact fun hd => ⟨_, dateEncode_eq t, inFormat_stamp t, hd⟩

/-- 2000-01-01 00:00:01. -/
def oddSecond : Timestamp :=
  ⟨⟨0, 1, 0, 0, 1, 1, 0, 20⟩, by decide, by decide, by decide, by decide, by decide, by decide,
    by decide, by decide⟩

/-- One second past midnight comes back as 100 centiseconds past midnight. -/
theorem odd_second_lost : ¬ DateRight oddSecond ∧
    (dateEncode oddSecond.tod).map (fun s => ((dateDecode s).second, (dateDecode s).centisec)) =
      .ok (0, 100) := by
  refine ⟨?_, rfl⟩
  rintro ⟨s, hs, -, hd⟩
  cases (dateEncode_eq _).symm.trans hs
  exact absurd hd (by decide)

end Dgos.L3.Fat32
