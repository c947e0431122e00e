import LocalStack.Lib.Calendar
import LocalStack.Lib.Framing
import Mathlib.Tactic.IntervalCases

/-! Readers of textual dates: ISO 8601 with a literal `Z` and the date of RFC 822
with the zone `GMT`. Both give the UTC instant in microseconds. -/

namespace LocalStack.DateText
open LocalStack.Text LocalStack.Decimal LocalStack.Calendar LocalStack.Framing

/-! ## Numbers and delimiters -/

/-- The text up to the next `c`, which is taken too. -/
def readBefore (c : Char) : Reader Char Str := fun s =>
  match s.dropWhile (· ≠ c) with
  | [] => none
  | _ :: rest => some (s.takeWhile (· ≠ c), rest)

/-- The value of a text of digits. -/
def digitsValue (s : Str) : Option Nat :=
  if s ≠ [] ∧ s.all Char.isDigit then some (Nat.ofDigitChars 10 s 0) else none

def readNumber (c : Char) : Reader Char Nat := do digitsValue (← readBefore c)

/-- A text that ends where the reader does. -/
def readWhole {α : Type} (read : Reader Char α) (s : Str) : Option α :=
  match read.run s with
  | some (x, []) => some x
  | _ => none

theorem readWhole_of_reads {α : Type} {read : Reader Char α} {s : Str} {x : α}
    (h : Reads read s x) : readWhole read s = some x := by
  have hread := h []
  rw [List.append_nil] at hread
  rw [readWhole, hread]

theorem reads_readBefore {c : Char} {s : Str} (h : c ∉ s) :
    Reads (readBefore c) (s ++ [c]) s := by
  intro rest
  have hne := ne_of_not_mem h
  show readBefore c (s ++ [c] ++ rest) = _
  rw [readBefore, List.append_assoc, List.dropWhile_append_of_pos hne,
    List.takeWhile_append_of_pos hne]
  simp

/-- `s` are digits with the value `n`. -/
structure Digits (s : Str) (n : Nat) : Prop where
  ne_nil : s ≠ []
  digit : ∀ c ∈ s, c.isDigit = true
  value : Nat.ofDigitChars 10 s 0 = n

theorem Digits.digitsValue {s : Str} {n : Nat} (h : Digits s n) : digitsValue s = some n := by
  rw [DateText.digitsValue, if_pos ⟨h.ne_nil, List.all_eq_true.mpr h.digit⟩, h.value]

theorem Digits.not_mem {s : Str} {n : Nat} (h : Digits s n) {c : Char} (hc : c.isDigit = false) :
    c ∉ s := by
  intro hmem
  rw [h.digit c hmem] at hc
  cases hc

theorem Digits.reads {s : Str} {n : Nat} (h : Digits s n) {c : Char} (hc : c.isDigit = false) :
    Reads (readNumber c) (s ++ [c]) n := by
  intro rest
  rw [readNumber, StateT.run_bind, reads_readBefore (h.not_mem hc)]
  show (liftM (DateText.digitsValue s) : Reader Char Nat).run rest = _
  rw [h.digitsValue]
  rfl

theorem digits_natToStr (n : Nat) : Digits (natToStr n) n :=
  ⟨natToStr_ne_nil n, fun _ h => isDigit_of_mem_natToStr h,
    Nat.ofDigitChars_toDigits (by decide) (by decide)⟩

/-- Two more digits. -/
theorem Digits.append_pad2 {s : Str} {m n : Nat} (h : Digits s m) (hn : n < 100) :
    Digits (s ++ pad2 n) (100 * m + n) := by
  refine ⟨by simp [pad2], fun c hc => ?_, ?_⟩
  · rcases List.mem_append.mp hc with hc | hc
    · exact h.digit c hc
    · simp only [pad2, List.mem_cons, List.not_mem_nil, or_false] at hc
      rcases hc with rfl | rfl <;> rw [Nat.isDigit_digitChar, decide_eq_true_eq] <;> omega
  · have hvalue := ofDigitChars_pad2 hn [] m
    rw [List.append_nil, Nat.ofDigitChars_nil] at hvalue
    rw [Nat.ofDigitChars_append, h.value, hvalue]

theorem digits_pad2 {n : Nat} (hn : n < 100) : Digits (pad2 n) n := by
  refine ⟨by simp [pad2], fun c hc => ?_, ?_⟩
  · simp only [pad2, List.mem_cons, List.not_mem_nil, or_false] at hc
    rcases hc with rfl | rfl <;> rw [Nat.isDigit_digitChar, decide_eq_true_eq] <;> omega
  · have hvalue := ofDigitChars_pad2 hn [] 0
    rwa [List.append_nil, Nat.ofDigitChars_nil, Nat.mul_zero, Nat.zero_add] at hvalue

theorem digits_pad6 {n : Nat} (hn : n < 1000000) : Digits (pad6 n) n := by
  have h := ((digits_pad2 (n := n / 10000) (by omega)).append_pad2
    (n := n / 100 % 100) (by omega)).append_pad2 (n := n % 100) (by omega)
  rwa [show 100 * (100 * (n / 10000) + n / 100 % 100) + n % 100 = n by omega] at h

/-- `n` below 10000 with four digits. -/
def pad4 (n : Nat) : Str := pad2 (n / 100) ++ pad2 (n % 100)

theorem digits_pad4 {n : Nat} (hn : n < 10000) : Digits (pad4 n) n := by
  have h := (digits_pad2 (n := n / 100) (by omega)).append_pad2 (n := n % 100) (by omega)
  rwa [show 100 * (n / 100) + n % 100 = n by omega] at h

/-! ## Years -/

theorem year_pos {t : Int} (h : -62135596800000000 ≤ t) : 1 ≤ (dateOf t).year := by
  obtain ⟨hm, hm', hd, hd'⟩ := date_bounds (t / dayMicros)
  have hdays := daysOfDate_dateOfDays (t / dayMicros)
  have hlo : -719162 ≤ t / dayMicros := by simp only [dayMicros]; omega
  rw [← dateOf] at hm hm' hd hd' hdays
  simp only [daysOfDate, daysBeforeYear] at hdays
  split at hdays <;> omega

theorem year_lt {t : Int} (h : t < 253402300800000000) : (dateOf t).year ≤ 9999 := by
  obtain ⟨hm, hm', hd, hd'⟩ := date_bounds (t / dayMicros)
  have hdays := daysOfDate_dateOfDays (t / dayMicros)
  have hhi : t / dayMicros ≤ 2932896 := by simp only [dayMicros]; omega
  rw [← dateOf] at hm hm' hd hd' hdays
  simp only [daysOfDate, daysBeforeYear] at hdays
  split at hdays <;> omega

theorem time_bounds (t : Int) : hourOf t < 100 ∧ minuteOf t < 100 ∧ secondOf t < 100 ∧
    microsecondOf t < 1000000 := by
  simp only [hourOf, minuteOf, secondOf, microsecondOf, dayMicros]
  omega

/-! ## ISO 8601 -/

/-- Seconds with an optional fraction, in microseconds. -/
def secondsValue (s : Str) : Option Nat :=
  match partition '.' s with
  | (whole, [], _) => do return 1000000 * (← digitsValue whole)
  | (whole, _, fraction) => do
    return 1000000 * (← digitsValue whole) +
      (← digitsValue fraction) * 1000000 / 10 ^ fraction.length

def readIso : Reader Char Int := do
  let year ← readNumber '-'
  let month ← readNumber '-'
  let day ← readNumber 'T'
  let hour ← readNumber ':'
  let minute ← readNumber ':'
  let seconds ← secondsValue (← readBefore 'Z')
  return daysOfDate ⟨year, month, day⟩ * dayMicros + (hour : Int) * 3600000000 +
    (minute : Int) * 60000000 + (seconds : Int)

theorem secondsValue_whole {s : Str} {n : Nat} (h : Digits s n) :
    secondsValue s = some (1000000 * n) := by
  rw [secondsValue, partition_of_not_mem (h.not_mem (by decide))]
  simp only [h.digitsValue]
  rfl

theorem secondsValue_fraction {s f : Str} {m n : Nat} (h : Digits s m) (hf : Digits f n) :
    secondsValue (s ++ '.' :: f) = some (1000000 * m + n * 1000000 / 10 ^ f.length) := by
  rw [secondsValue, partition_append (h.not_mem (by decide))]
  simp only [h.digitsValue, hf.digitsValue]
  rfl

/-- The text of an instant up to the minutes, and any seconds. -/
theorem readIso_eq {t : Int} (ht : -62135596800000000 ≤ t) {fraction : Str} {n : Nat}
    (hZ : 'Z' ∉ fraction) (hn : secondsValue (pad2 (secondOf t) ++ fraction) = some n) :
    readWhole readIso (formatSeconds t ++ fraction ++ ['Z']) =
      some (t / dayMicros * dayMicros + (hourOf t : Int) * 3600000000 +
        (minuteOf t : Int) * 60000000 + (n : Int)) := by
  obtain ⟨hh, hmin, hsec, -⟩ := time_bounds t
  obtain ⟨hm, hm', hd, hd'⟩ := date_bounds (t / dayMicros)
  have hdays := daysOfDate_dateOfDays (t / dayMicros)
  have hy := year_pos ht
  rw [← dateOf] at hm hm' hd hd' hdays
  have hdate : (⟨((dateOf t).year.toNat : Int), ((dateOf t).month.toNat : Int),
      ((dateOf t).day.toNat : Int)⟩ : Date) = dateOf t := by
    rw [Int.toNat_of_nonneg (by omega), Int.toNat_of_nonneg (by omega),
      Int.toNat_of_nonneg (by omega)]
  have htext : formatSeconds t ++ fraction ++ ['Z'] =
      (natToStr (dateOf t).year.toNat ++ ['-']) ++ ((pad2 (dateOf t).month.toNat ++ ['-']) ++
        ((pad2 (dateOf t).day.toNat ++ ['T']) ++ ((pad2 (hourOf t) ++ [':']) ++
          ((pad2 (minuteOf t) ++ [':']) ++
            ((pad2 (secondOf t) ++ fraction ++ ['Z']) ++ []))))) := by
    simp [formatSeconds]
  have hseconds : 'Z' ∉ pad2 (secondOf t) ++ fraction := by
    rw [List.mem_append, not_or]
    exact ⟨(digits_pad2 hsec).not_mem (by decide), hZ⟩
  rw [htext]
  refine readWhole_of_reads ?_
  refine ((digits_natToStr _).reads (by decide)).bind ?_
  refine ((digits_pad2 (by omega)).reads (by decide)).bind ?_
  refine ((digits_pad2 (by omega)).reads (by decide)).bind ?_
  refine ((digits_pad2 hh).reads (by decide)).bind ?_
  refine ((digits_pad2 hmin).reads (by decide)).bind ?_
  refine (reads_readBefore hseconds).bind (Reads.some_bind hn ?_)
  rw [hdate, hdays]
  exact reads_pure _

/-- With or without microseconds. -/
theorem readIso_iso8601 {t : Int} (ht : -62135596800000000 ≤ t) :
    readWhole readIso (iso8601 t) = some t := by
  obtain ⟨-, -, hsec, hmic⟩ := time_bounds t
  have hsum := sum_fields t
  rw [iso8601]
  split
  · have hfraction := digits_pad6 hmic
    have hZ : 'Z' ∉ '.' :: pad6 (microsecondOf t) := by
      rw [List.mem_cons, not_or]
      exact ⟨by decide, hfraction.not_mem (by decide)⟩
    rw [readIso_eq ht hZ (secondsValue_fraction (digits_pad2 hsec) hfraction), Option.some.injEq]
    rw [show (pad6 (microsecondOf t)).length = 6 from rfl]
    omega
  · have hnone : 'Z' ∉ ([] : Str) := by simp
    have hread := readIso_eq ht hnone
      (secondsValue_whole (by rw [List.append_nil]; exact digits_pad2 hsec))
    rw [List.append_nil] at hread
    rw [hread, Option.some.injEq]
    omega

/-- With milliseconds that are always zero the text denotes the second. -/
theorem readIso_zero_fraction {t : Int} (ht : -62135596800000000 ≤ t) :
    readWhole readIso (formatSeconds t ++ ".000Z".toList) = some (t / 1000000 * 1000000) := by
  obtain ⟨-, -, hsec, -⟩ := time_bounds t
  have hzero : Digits "000".toList 0 := ⟨by decide, by decide, by decide⟩
  have hsum := sum_fields t
  have hread := readIso_eq ht (by decide) (secondsValue_fraction (digits_pad2 hsec) hzero)
  rw [List.append_assoc] at hread
  refine hread.trans (congrArg some ?_)
  simp only [microsecondOf] at hsum
  rw [Nat.zero_mul, Nat.zero_div]
  omega

/-! ## RFC 822 -/

def weekdayNames : List Str :=
  ["Mon", "Tue", "Wed", "Thu", "Fri", "Sat", "Sun"].map String.toList

def monthNames : List Str :=
  ["Jan", "Feb", "Mar", "Apr", "May", "Jun", "Jul", "Aug", "Sep", "Oct", "Nov", "Dec"].map
    String.toList

/-- 1970-01-01 was a Thursday. -/
def weekdayName (days : Int) : Str := weekdayNames.getD ((days + 3) % 7).toNat []

def monthName (month : Int) : Str := monthNames.getD (month - 1).toNat []

/-- `email.utils.format_datetime(dt, usegmt=True)` of the instant `t`. -/
def formatRfc822 (t : Int) : Str :=
  weekdayName (t / dayMicros) ++ ", ".toList ++ pad2 (dateOf t).day.toNat ++
    ' ' :: monthName (dateOf t).month ++ ' ' :: pad4 (dateOf t).year.toNat ++
    ' ' :: pad2 (hourOf t) ++ ':' :: pad2 (minuteOf t) ++ ':' :: pad2 (secondOf t) ++
    " GMT".toList

example : formatRfc822 1700000000999999 = "Tue, 14 Nov 2023 22:13:20 GMT".toList := by decide

/-- The number of a month; `none` if there is none of the name. -/
def monthNumber (name : Str) : Option Int :=
  if name ∈ monthNames then some (monthNames.idxOf name + 1) else none

/-- The weekday has to be that of the date. -/
def readRfc822 : Reader Char Int := do
  let weekday ← readBefore ','
  guard ((← readBefore ' ') = [])
  let day ← readNumber ' '
  let month ← monthNumber (← readBefore ' ')
  let year ← readNumber ' '
  let hour ← readNumber ':'
  let minute ← readNumber ':'
  let second ← readNumber ' '
  guard ((← takeN 3) = "GMT".toList)
  guard (weekday = weekdayName (daysOfDate ⟨year, month, day⟩))
  return daysOfDate ⟨year, month, day⟩ * dayMicros + (hour : Int) * 3600000000 +
    (minute : Int) * 60000000 + (second : Int) * 1000000

theorem weekdayName_mem (days : Int) : weekdayName days ∈ weekdayNames := by
  have hlt : ((days + 3) % 7).toNat < weekdayNames.length := by
    simp only [weekdayNames, List.length_map, List.length_cons, List.length_nil]
    omega
  rw [weekdayName, List.getD, List.getElem?_eq_getElem hlt]
  exact List.getElem_mem hlt

theorem monthNumber_monthName {month : Int} (h : 1 ≤ month) (h' : month ≤ 12) :
    monthNumber (monthName month) = some month ∧ ' ' ∉ monthName month := by
  interval_cases month <;> decide

theorem readRfc822_formatRfc822 {t : Int} (ht : -62135596800000000 ≤ t)
    (ht' : t < 253402300800000000) :
    readWhole readRfc822 (formatRfc822 t) = some (t / 1000000 * 1000000) := by
  obtain ⟨hh, hmin, hsec, -⟩ := time_bounds t
  obtain ⟨hm, hm', hd, hd'⟩ := date_bounds (t / dayMicros)
  have hdays := daysOfDate_dateOfDays (t / dayMicros)
  have hy := year_pos ht
  have hy' := year_lt ht'
  have hsum := sum_fields t
  rw [← dateOf] at hm hm' hd hd' hdays
  obtain ⟨hmonth, hspace⟩ := monthNumber_monthName hm hm'
  have hcomma : ∀ name ∈ weekdayNames, ',' ∉ name := by decide
  have hdate : (⟨((dateOf t).year.toNat : Int), (dateOf t).month,
      ((dateOf t).day.toNat : Int)⟩ : Date) = dateOf t := by
    rw [Int.toNat_of_nonneg (by omega), Int.toNat_of_nonneg (by omega)]
  have htext : formatRfc822 t = (weekdayName (t / dayMicros) ++ [',']) ++ (([] ++ [' ']) ++
      ((pad2 (dateOf t).day.toNat ++ [' ']) ++ ((monthName (dateOf t).month ++ [' ']) ++
        ((pad4 (dateOf t).year.toNat ++ [' ']) ++ ((pad2 (hourOf t) ++ [':']) ++
          ((pad2 (minuteOf t) ++ [':']) ++ ((pad2 (secondOf t) ++ [' ']) ++
            ("GMT".toList ++ [])))))))) := by
    simp [formatRfc822]
  rw [htext]
  refine readWhole_of_reads ?_
  refine (reads_readBefore (hcomma _ (weekdayName_mem _))).bind ?_
  refine (reads_readBefore (by simp)).bind (Reads.guard_bind rfl ?_)
  refine ((digits_pad2 (by omega)).reads (by decide)).bind ?_
  refine (reads_readBefore hspace).bind (Reads.some_bind hmonth ?_)
  refine ((digits_pad4 (by omega)).reads (by decide)).bind ?_
  refine ((digits_pad2 hh).reads (by decide)).bind ?_
  refine ((digits_pad2 hmin).reads (by decide)).bind ?_
  refine ((digits_pad2 hsec).reads (by decide)).bind ?_
  refine Reads.takeN_bind (by decide) ?_
  refine Reads.guard_bind rfl ?_
  rw [hdate, hdays]
  refine Reads.guard_bind rfl ?_
  rw [show t / dayMicros * dayMicros + (hourOf t : Int) * 3600000000 +
    (minuteOf t : Int) * 60000000 + (secondOf t : Int) * 1000000 = t / 1000000 * 1000000 by
      simp only [microsecondOf] at hsum
      omega]
  exact reads_pure _

end LocalStack.DateText
