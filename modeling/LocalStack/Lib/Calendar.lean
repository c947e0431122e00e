import LocalStack.Lib.Decimal
import Mathlib.Tactic.Ring

/-! The proleptic Gregorian calendar of days since 1970-01-01, and the ISO 8601
text of a UTC instant in microseconds. Years begin in March for the
computation, so that the leap day is the last of its year. -/

namespace LocalStack.Calendar
open LocalStack.Text LocalStack.Decimal

/-! ## Days -/

structure Date where
  year : Int
  month : Int
  day : Int
  deriving DecidableEq, Repr

/-- The days of a 400-year era before its year `yoe`. -/
def daysBeforeYear (yoe : Int) : Int := 365 * yoe + yoe / 4 - yoe / 100

/-- The year of an era that its day `doe` falls in: by centuries, the last of
which is a day longer, by four years, and by years, the last of which is too. -/
def yearOfEra (doe : Int) : Int :=
  let century := min (doe / 36524) 3
  let doc := doe - century * 36524
  let year := min (doc % 1461 / 365) 3
  100 * century + 4 * (doc / 1461) + year

/-- The date of day `doy` of the year `y` that begins in March. -/
def dateOfYearDay (y doy : Int) : Date :=
  let mp := (5 * doy + 2) / 153
  { year := if mp < 10 then y else y + 1
    month := if mp < 10 then mp + 3 else mp - 9
    day := doy - (153 * mp + 2) / 5 + 1 }

def dateOfDays (days : Int) : Date :=
  let z := days + 719468
  let doe := z % 146097
  let yoe := yearOfEra doe
  dateOfYearDay (yoe + z / 146097 * 400) (doe - daysBeforeYear yoe)

def daysOfDate (date : Date) : Int :=
  let y := if date.month ≤ 2 then date.year - 1 else date.year
  let mp := if date.month ≤ 2 then date.month + 9 else date.month - 3
  let doy := (153 * mp + 2) / 5 + date.day - 1
  y / 400 * 146097 + daysBeforeYear (y % 400) + doy - 719468

theorem yearOfEra_bounds (doe : Int) (h : 0 ≤ doe) (h' : doe < 146097) :
    0 ≤ yearOfEra doe ∧ yearOfEra doe < 400 ∧ 0 ≤ doe - daysBeforeYear (yearOfEra doe) ∧
      doe - daysBeforeYear (yearOfEra doe) ≤ 365 := by
  obtain ⟨c, hc⟩ : ∃ c, c = min (doe / 36524) 3 := ⟨_, rfl⟩
  obtain ⟨q, hq⟩ : ∃ q, q = (doe - c * 36524) / 1461 := ⟨_, rfl⟩
  obtain ⟨y, hy⟩ : ∃ y, y = min ((doe - c * 36524) % 1461 / 365) 3 := ⟨_, rfl⟩
  have hyear : yearOfEra doe = 100 * c + 4 * q + y := by rw [yearOfEra, ← hc, ← hq, ← hy]
  have hc' : 0 ≤ c ∧ c ≤ 3 ∧ 0 ≤ doe - c * 36524 ∧ doe - c * 36524 ≤ 36524 := by omega
  generalize hdoc : doe - c * 36524 = doc at *
  have hq' : 0 ≤ q ∧ q ≤ 24 := by omega
  have hy' : 0 ≤ y ∧ y ≤ 3 ∧ 0 ≤ doc - 1461 * q - 365 * y ∧ doc - 1461 * q - 365 * y ≤ 365 := by
    omega
  have hbefore : daysBeforeYear (100 * c + 4 * q + y) = c * 36524 + 1461 * q + 365 * y := by
    have h4 : (100 * c + 4 * q + y) / 4 = 25 * c + q := by omega
    have h100 : (100 * c + 4 * q + y) / 100 = c := by omega
    rw [daysBeforeYear, h4, h100]
    ring
  rw [hyear, hbefore]
  omega

theorem daysOfDate_dateOfYearDay {era yoe doy : Int} (hy : 0 ≤ yoe) (hy' : yoe < 400)
    (hd : 0 ≤ doy) (hd' : doy ≤ 365) :
    daysOfDate (dateOfYearDay (yoe + era * 400) doy) =
      era * 146097 + daysBeforeYear yoe + doy - 719468 := by
  have hera : (yoe + era * 400) / 400 = era := by omega
  have hyoe : (yoe + era * 400) % 400 = yoe := by omega
  simp only [daysOfDate, dateOfYearDay]
  by_cases hm : (5 * doy + 2) / 153 < 10
  · have hmonth : ¬ (5 * doy + 2) / 153 + 3 ≤ 2 := by omega
    simp only [hm, hmonth, if_true, if_false, hera, hyoe]
    omega
  · have hmonth : (5 * doy + 2) / 153 - 9 ≤ 2 := by omega
    have hyear : yoe + era * 400 + 1 - 1 = yoe + era * 400 := by omega
    simp only [hm, hmonth, if_true, if_false, hyear, hera, hyoe]
    omega

/-- The date of a day is the date of no other day. -/
theorem daysOfDate_dateOfDays (days : Int) : daysOfDate (dateOfDays days) = days := by
  obtain ⟨hy, hy', hd, hd'⟩ := yearOfEra_bounds ((days + 719468) % 146097) (by omega)
    (by omega)
  rw [dateOfDays, daysOfDate_dateOfYearDay hy hy' hd hd']
  omega

/-! ## ISO 8601 text -/

/-- `n` below 100 with two digits. -/
def pad2 (n : Nat) : Str := [Nat.digitChar (n / 10), Nat.digitChar (n % 10)]

/-- `n` below a million with six digits. -/
def pad6 (n : Nat) : Str := pad2 (n / 10000) ++ pad2 (n / 100 % 100) ++ pad2 (n % 100)

/-- Microseconds in a day. -/
def dayMicros : Int := 86400000000

def dateOf (t : Int) : Date := dateOfDays (t / dayMicros)

/-- Hours, minutes, seconds and microseconds of the day. -/
def hourOf (t : Int) : Nat := (t % dayMicros / 3600000000).toNat
def minuteOf (t : Int) : Nat := (t % dayMicros / 60000000 % 60).toNat
def secondOf (t : Int) : Nat := (t % dayMicros / 1000000 % 60).toNat
def microsecondOf (t : Int) : Nat := (t % 1000000).toNat

/-- `strftime("%Y-%m-%dT%H:%M:%S")` of the instant `t` in UTC; the year is not padded. -/
def formatSeconds (t : Int) : Str :=
  natToStr (dateOf t).year.toNat ++ '-' :: pad2 (dateOf t).month.toNat ++
    '-' :: pad2 (dateOf t).day.toNat ++ 'T' :: pad2 (hourOf t) ++ ':' :: pad2 (minuteOf t) ++
    ':' :: pad2 (secondOf t)

/-- With the microseconds where there are any. -/
def iso8601 (t : Int) : Str :=
  if 0 < microsecondOf t then formatSeconds t ++ '.' :: pad6 (microsecondOf t) ++ ['Z']
  else formatSeconds t ++ ['Z']

example : iso8601 1700000000000000 = "2023-11-14T22:13:20Z".toList ∧
    iso8601 (-1) = "1969-12-31T23:59:59.999999Z".toList := by decide

def digitsAt (s : Str) (i k : Nat) : Int := Nat.ofDigitChars 10 ((s.drop i).take k) 0

/-- Reads what `iso8601` writes for years of four digits. -/
def readIso8601 (s : Str) : Int :=
  daysOfDate ⟨digitsAt s 0 4, digitsAt s 5 2, digitsAt s 8 2⟩ * dayMicros +
    digitsAt s 11 2 * 3600000000 + digitsAt s 14 2 * 60000000 + digitsAt s 17 2 * 1000000 +
    if s.length = 20 then 0 else digitsAt s 20 6

theorem ofDigitChars_pad2 {n : Nat} (h : n < 100) (s : Str) (init : Nat) :
    Nat.ofDigitChars 10 (pad2 n ++ s) init = Nat.ofDigitChars 10 s (100 * init + n) := by
  rw [pad2, List.cons_append, List.cons_append, List.nil_append,
    Nat.ofDigitChars_cons_digitChar_of_lt_ten (by omega),
    Nat.ofDigitChars_cons_digitChar_of_lt_ten (by omega)]
  congr 1
  omega

theorem date_bounds (days : Int) :
    1 ≤ (dateOfDays days).month ∧ (dateOfDays days).month ≤ 12 ∧ 1 ≤ (dateOfDays days).day ∧
      (dateOfDays days).day ≤ 31 := by
  obtain ⟨hy, hy', hd, hd'⟩ := yearOfEra_bounds ((days + 719468) % 146097) (by omega)
    (by omega)
  rw [dateOfDays, dateOfYearDay]
  generalize (days + 719468) % 146097 - daysBeforeYear _ = doy at *
  dsimp only
  split <;> omega

theorem digitsAt_eq (before : Str) {s after : Str} {i k n : Nat} (hs : s = before ++ (pad2 n ++ after))
    (hi : before.length = i) (hk : k = 2) (hn : n < 100) : digitsAt s i k = n := by
  have ht : (s.drop i).take k = pad2 n := by
    rw [hs, ← hi, List.drop_left, hk]
    rfl
  have hd := ofDigitChars_pad2 hn [] 0
  rw [List.append_nil] at hd
  rw [digitsAt, ht, hd]
  simp

theorem length_pad2 (n : Nat) : (pad2 n).length = 2 := rfl

theorem digitsAt_pad6 (before after : Str) {i n : Nat} (hi : before.length = i)
    (hn : n < 1000000) : digitsAt (before ++ (pad6 n ++ after)) i 6 = n := by
  have ht : ((before ++ (pad6 n ++ after)).drop i).take 6 = pad6 n := by
    rw [← hi, List.drop_left]
    rfl
  rw [digitsAt, ht, pad6, List.append_assoc, ofDigitChars_pad2 (by omega),
    ofDigitChars_pad2 (by omega), ← List.append_nil (pad2 (n % 100)), ofDigitChars_pad2 (by omega),
    Nat.ofDigitChars_nil]
  omega

/-- The fields of the text up to the seconds, whatever comes after them. -/
theorem digitsAt_formatSeconds {t : Int} (hlo : 1000 ≤ (dateOf t).year)
    (hhi : (dateOf t).year ≤ 9999) :
    (formatSeconds t).length = 19 ∧ ∀ tail,
      digitsAt (formatSeconds t ++ tail) 0 4 = (dateOf t).year ∧
      digitsAt (formatSeconds t ++ tail) 5 2 = (dateOf t).month ∧
      digitsAt (formatSeconds t ++ tail) 8 2 = (dateOf t).day ∧
      digitsAt (formatSeconds t ++ tail) 11 2 = hourOf t ∧
      digitsAt (formatSeconds t ++ tail) 14 2 = minuteOf t ∧
      digitsAt (formatSeconds t ++ tail) 17 2 = secondOf t := by
  obtain ⟨hm, hm', hd, hd'⟩ := date_bounds (t / dayMicros)
  rw [← dateOf] at hm hm' hd hd'
  have hh : hourOf t < 100 := by simp only [hourOf, dayMicros]; omega
  have hmin : minuteOf t < 100 := by simp only [minuteOf]; omega
  have hsec : secondOf t < 100 := by simp only [secondOf]; omega
  obtain ⟨Y, hY⟩ : ∃ Y : Nat, (dateOf t).year = Y := ⟨_, (Int.toNat_of_nonneg (by omega)).symm⟩
  obtain ⟨M, hM⟩ : ∃ M : Nat, (dateOf t).month = M := ⟨_, (Int.toNat_of_nonneg (by omega)).symm⟩
  obtain ⟨D, hD⟩ : ∃ D : Nat, (dateOf t).day = D := ⟨_, (Int.toNat_of_nonneg (by omega)).symm⟩
  rw [hY] at hlo hhi
  rw [hM] at hm'
  rw [hD] at hd'
  have hlen : (natToStr Y).length = 4 := by
    have hle := (Nat.length_toDigits_le_iff (b := 10) (n := Y) (k := 4) (by decide)
      (by decide)).mpr (by omega)
    have hgt := (Nat.length_toDigits_le_iff (b := 10) (n := Y) (k := 3) (by decide)
      (by decide)).not.mpr (by omega)
    rw [← natToStr] at hle hgt
    omega
  have hfmt : formatSeconds t = natToStr Y ++ '-' :: pad2 M ++ '-' :: pad2 D ++
      'T' :: pad2 (hourOf t) ++ ':' :: pad2 (minuteOf t) ++ ':' :: pad2 (secondOf t) := by
    simp [formatSeconds, hY, hM, hD]
  refine ⟨by simp [hfmt, hlen, length_pad2], fun tail => ?_⟩
  rw [hfmt, hY, hM, hD]
  refine ⟨?_, ?_, ?_, ?_, ?_, ?_⟩
  · have ht : ((natToStr Y ++ '-' :: pad2 M ++ '-' :: pad2 D ++ 'T' :: pad2 (hourOf t) ++
        ':' :: pad2 (minuteOf t) ++ ':' :: pad2 (secondOf t) ++ tail).drop 0).take 4 =
        natToStr Y := by
      simp only [List.drop_zero, List.append_assoc]
      exact List.take_left' hlen
    rw [digitsAt, ht, natToStr, Nat.ofDigitChars_toDigits (by decide) (by decide)]
  · exact digitsAt_eq (natToStr Y ++ ['-'])
      (by simp only [List.append_assoc, List.cons_append, List.nil_append]; rfl)
      (by simp [hlen]) rfl (by omega)
  · exact digitsAt_eq (natToStr Y ++ '-' :: pad2 M ++ ['-'])
      (by simp only [List.append_assoc, List.cons_append, List.nil_append]; rfl)
      (by simp [hlen, length_pad2]) rfl (by omega)
  · exact digitsAt_eq (natToStr Y ++ '-' :: pad2 M ++ '-' :: pad2 D ++ ['T'])
      (by simp only [List.append_assoc, List.cons_append, List.nil_append]; rfl)
      (by simp [hlen, length_pad2]) rfl hh
  · exact digitsAt_eq
      (natToStr Y ++ '-' :: pad2 M ++ '-' :: pad2 D ++ 'T' :: pad2 (hourOf t) ++ [':'])
      (by simp only [List.append_assoc, List.cons_append, List.nil_append]; rfl)
      (by simp [hlen, length_pad2]) rfl hmin
  · exact digitsAt_eq
      (natToStr Y ++ '-' :: pad2 M ++ '-' :: pad2 D ++ 'T' :: pad2 (hourOf t) ++
        ':' :: pad2 (minuteOf t) ++ [':'])
      (by simp only [List.append_assoc, List.cons_append, List.nil_append]; rfl)
      (by simp [hlen, length_pad2]) rfl hsec

/-- An instant is its day and its time of the day. -/
theorem sum_fields (t : Int) : t / dayMicros * dayMicros + (hourOf t : Int) * 3600000000 +
    (minuteOf t : Int) * 60000000 + (secondOf t : Int) * 1000000 + (microsecondOf t : Int) = t := by
  obtain ⟨r, hr⟩ : ∃ r, r = t % dayMicros := ⟨_, rfl⟩
  obtain ⟨s, hs⟩ : ∃ s, s = r / 1000000 := ⟨_, rfl⟩
  have hpos : 0 ≤ r := hr ▸ Int.emod_nonneg t (by decide)
  have hday : t / dayMicros * dayMicros + r = t := hr ▸ Int.ediv_mul_add_emod t dayMicros
  have hhour : r / 3600000000 = s / 3600 := by omega
  have hminute : r / 60000000 = s / 60 := by omega
  have hmicro : t % 1000000 = r % 1000000 := by
    rw [hr, Int.emod_emod_of_dvd t (by decide)]
  have htime : s / 3600 * 3600 + s / 60 % 60 * 60 + s % 60 = s := by omega
  rw [hourOf, minuteOf, secondOf, microsecondOf, ← hr, hhour, hminute, hmicro, ← hs]
  omega

/-- The instant is read back from its text. -/
theorem readIso8601_iso8601 {t : Int} (hlo : 1000 ≤ (dateOf t).year)
    (hhi : (dateOf t).year ≤ 9999) : readIso8601 (iso8601 t) = t := by
  obtain ⟨hlen, hfields⟩ := digitsAt_formatSeconds hlo hhi
  have hdays := daysOfDate_dateOfDays (t / dayMicros)
  rw [← dateOf] at hdays
  have hmic : microsecondOf t < 1000000 := by simp only [microsecondOf]; omega
  have hsum := sum_fields t
  rw [iso8601]
  split
  · next hpos =>
    rw [List.append_assoc]
    obtain ⟨hy, hmo, hd, hh, hmin, hsec⟩ := hfields ('.' :: pad6 (microsecondOf t) ++ ['Z'])
    have hm := digitsAt_pad6 (formatSeconds t ++ ['.']) ['Z'] (i := 20)
      (by simp [hlen]) hmic
    simp only [List.append_assoc, List.cons_append, List.nil_append] at hm hy hmo hd hh hmin hsec
    have hne : ¬ (formatSeconds t ++ '.' :: (pad6 (microsecondOf t) ++ ['Z'])).length = 20 := by
      simp only [List.length_append, List.length_cons, hlen]
      omega
    simp only [List.cons_append, readIso8601, hy, hmo, hd, hh, hmin, hsec, hne, if_false, hm]
    rw [show (⟨(dateOf t).year, (dateOf t).month, (dateOf t).day⟩ : Date) = dateOf t from rfl, hdays]
    exact hsum
  · next hzero =>
    obtain ⟨hy, hmo, hd, hh, hmin, hsec⟩ := hfields ['Z']
    have heq : (formatSeconds t ++ ['Z']).length = 20 := by simp [hlen]
    simp only [readIso8601, hy, hmo, hd, hh, hmin, hsec, heq, if_true]
    rw [show (⟨(dateOf t).year, (dateOf t).month, (dateOf t).day⟩ : Date) = dateOf t from rfl, hdays]
    omega

end LocalStack.Calendar
