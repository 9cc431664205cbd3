import Grosh.Lib.Numerals
import Mathlib.Data.Int.Notation

/-!
# Moments as ISO 8601 text

A moment is a number of microseconds since the epoch; its text is the UTC date and time in the
proleptic Gregorian calendar. The calendar is computed the way Python's `datetime` does it: days
are numbered from 1 January of year 1, and cycles of 400, 100, 4 and 1 years are divided out.

* `ymd2ord_ord2ymd` — the date of a day is a date of the calendar, and its day is that day.
* `fromisoformat_isoformat` — the text of a moment of the years 1 to 9999 is read back.
* `Datetime.read_isoformat` — and so is that of a datetime with an offset, or without one.
-/

namespace Isoformat

open Numerals

/-! ## The calendar

The functions of Python's `datetime`, word for word. Days are counted from 1 January of year 1, and
the cycles of four hundred, hundred and four years are split off one after another. -/

/-- `_is_leap`: every fourth year, but of the full centuries only every fourth. -/
def isLeap (year : ℕ) : Bool := year % 4 = 0 ∧ (year % 100 ≠ 0 ∨ year % 400 = 0)

/-- `_DAYS_IN_MONTH`, and the day a leap year adds to February. -/
def daysInMonth (leap : Bool) (month : ℕ) : ℕ :=
  [0, 31, 28, 31, 30, 31, 30, 31, 31, 30, 31, 30, 31].getD month 0 +
    if leap = true ∧ month = 2 then 1 else 0

/-- `_DAYS_BEFORE_MONTH`, and the day a leap year adds after February. -/
def daysBeforeMonth (leap : Bool) (month : ℕ) : ℕ :=
  [0, 0, 31, 59, 90, 120, 151, 181, 212, 243, 273, 304, 334].getD month 0 +
    if leap = true ∧ 2 < month then 1 else 0

/-- `_days_before_year`: the days of all years before, with their leap days. -/
def daysBeforeYear (year : ℕ) : ℕ :=
  (year - 1) * 365 + (year - 1) / 4 - (year - 1) / 100 + (year - 1) / 400

/-- `_ymd2ord`: the number of a day, that of 1 January of year 1 being 1. -/
def ymd2ord (year month day : ℕ) : ℕ :=
  daysBeforeYear year + daysBeforeMonth (isLeap year) month + day

/-- The month and the day after `n` days of a year; the month estimated may be one too large. -/
def monthDay (leap : Bool) (n : ℕ) : ℕ × ℕ :=
  let month := (n + 50) / 32
  let month := if n < daysBeforeMonth leap month then month - 1 else month
  (month, n - daysBeforeMonth leap month + 1)

/-- `_ord2ymd`: the year, the month and the day of a numbered day. -/
def ord2ymd (n : ℕ) : ℕ × ℕ × ℕ :=
  let n := n - 1
  let n400 := n / 146097
  let n := n % 146097
  let n100 := n / 36524
  let n := n % 36524
  let n4 := n / 1461
  let n := n % 1461
  let n1 := n / 365
  let n := n % 365
  let year := n400 * 400 + n100 * 100 + n4 * 4 + n1 + 1
  -- the last day of a cycle that ends in a leap year
  if n1 = 4 ∨ n100 = 4 then (year - 1, 12, 31)
  else (year, monthDay (decide (n1 = 3 ∧ (n4 ≠ 24 ∨ n100 = 3))) n)

/-- A date of the calendar: a month of the year, and a day that the month has. -/
structure IsDate (year month day : ℕ) : Prop where
  year_pos : 1 ≤ year
  month_pos : 1 ≤ month
  month_le : month ≤ 12
  day_pos : 1 ≤ day
  day_le : day ≤ daysInMonth (isLeap year) month

instance (year month day : ℕ) : Decidable (IsDate year month day) :=
  decidable_of_iff
    (1 ≤ year ∧ 1 ≤ month ∧ month ≤ 12 ∧ 1 ≤ day ∧ day ≤ daysInMonth (isLeap year) month)
    ⟨fun ⟨hy, hm, hm', hd, hd'⟩ => ⟨hy, hm, hm', hd, hd'⟩,
      fun h => ⟨h.year_pos, h.month_pos, h.month_le, h.day_pos, h.day_le⟩⟩

theorem daysInMonth_le {leap : Bool} {month : ℕ} (h : month ≤ 12) :
    daysInMonth leap month ≤ 31 := by
  have hall : ∀ leap : Bool, ∀ month ≤ 12, daysInMonth leap month ≤ 31 := by decide
  exact hall leap month h

/-- The month and the day of each day of a year: the estimate of the month is off by one at most,
and is put right. -/
theorem monthDay_spec {leap : Bool} {n : ℕ} (h : n < 365 + if leap then 1 else 0) :
    (1 ≤ (monthDay leap n).1 ∧ (monthDay leap n).1 ≤ 12) ∧
      (1 ≤ (monthDay leap n).2 ∧ (monthDay leap n).2 ≤ daysInMonth leap (monthDay leap n).1) ∧
      daysBeforeMonth leap (monthDay leap n).1 + (monthDay leap n).2 = n + 1 := by
  have hall : ∀ leap : Bool, ∀ n < 365 + (if leap then 1 else 0),
      (1 ≤ (monthDay leap n).1 ∧ (monthDay leap n).1 ≤ 12) ∧
        (1 ≤ (monthDay leap n).2 ∧ (monthDay leap n).2 ≤ daysInMonth leap (monthDay leap n).1) ∧
        daysBeforeMonth leap (monthDay leap n).1 + (monthDay leap n).2 = n + 1 := by
    decide +kernel
  exact hall leap n h

/-- Where the cycles have ended, the leap years of the last one are those of the calendar. -/
theorem isLeap_cycles {n400 n100 n4 n1 : ℕ} (h100 : n100 < 4) (h4 : n4 < 25) (h1 : n1 < 4) :
    isLeap (n400 * 400 + n100 * 100 + n4 * 4 + n1 + 1) =
      decide (n1 = 3 ∧ (n4 ≠ 24 ∨ n100 = 3)) := by
  simp only [isLeap, decide_eq_decide]
  omega

theorem daysBeforeYear_cycles {n400 n100 n4 n1 : ℕ} (h100 : n100 < 4) (h4 : n4 < 25)
    (h1 : n1 < 4) :
    daysBeforeYear (n400 * 400 + n100 * 100 + n4 * 4 + n1 + 1) =
      n400 * 146097 + n100 * 36524 + n4 * 1461 + n1 * 365 := by
  simp only [daysBeforeYear]
  omega

/-- 31 December of a leap year, at which the cycles end and the division comes out one too large. -/
theorem isDate_lastDay {year n : ℕ} (hleap : isLeap (year + 1) = true)
    (hdays : daysBeforeYear (year + 1) + 366 = n) :
    IsDate (year + 1) 12 31 ∧ ymd2ord (year + 1) 12 31 = n := by
  refine ⟨⟨by omega, by decide, by decide, by decide, ?_⟩, ?_⟩
  · rw [hleap]
    decide
  · have hbefore : daysBeforeMonth true 12 = 335 := rfl
    rw [ymd2ord, hleap, hbefore]
    omega

/-- The day of a year whose leap day is known, found by month and day. -/
theorem isDate_monthDay {year r n : ℕ} {leap : Bool} (hyear : 1 ≤ year)
    (hleap : isLeap year = leap) (hr : r < 365 + if leap then 1 else 0)
    (hdays : daysBeforeYear year + (r + 1) = n) :
    IsDate year (monthDay leap r).1 (monthDay leap r).2 ∧
      ymd2ord year (monthDay leap r).1 (monthDay leap r).2 = n := by
  obtain ⟨⟨hm, hm'⟩, ⟨hd, hd'⟩, hsum⟩ := monthDay_spec hr
  refine ⟨⟨hyear, hm, hm', hd, ?_⟩, ?_⟩
  · rwa [hleap]
  · rw [ymd2ord, hleap, Nat.add_assoc, hsum, hdays]

/-- **The date of a day is a date of the calendar**, and its day is that day: the two functions of
the calendar are inverse. -/
theorem ymd2ord_ord2ymd {n : ℕ} (h : 1 ≤ n) :
    IsDate (ord2ymd n).1 (ord2ymd n).2.1 (ord2ymd n).2.2 ∧
      ymd2ord (ord2ymd n).1 (ord2ymd n).2.1 (ord2ymd n).2.2 = n := by
  simp only [ord2ymd]
  generalize h400 : (n - 1) / 146097 = n400
  generalize hr400 : (n - 1) % 146097 = r400
  generalize h100 : r400 / 36524 = n100
  generalize hr100 : r400 % 36524 = r100
  generalize h4 : r100 / 1461 = n4
  generalize hr4 : r100 % 1461 = r4
  generalize h1 : r4 / 365 = n1
  generalize hr1 : r4 % 365 = r1
  have hn : n = n400 * 146097 + n100 * 36524 + n4 * 1461 + n1 * 365 + r1 + 1 := by omega
  split
  · next hlast =>
    obtain ⟨b, c, hb, hc, hleap, hyear, hdays⟩ : ∃ b c, b < 4 ∧ c < 25 ∧ (c ≠ 24 ∨ b = 3) ∧
        n400 * 400 + n100 * 100 + n4 * 4 + n1 + 1 - 1 = n400 * 400 + b * 100 + c * 4 + 3 + 1 ∧
        n400 * 146097 + b * 36524 + c * 1461 + 3 * 365 + 366 = n := by
      rcases hlast with rfl | rfl
      · exact ⟨n100, n4, by omega⟩
      · exact ⟨3, 24, by omega⟩
    rw [hyear]
    apply isDate_lastDay
    · rw [isLeap_cycles hb hc (by omega)]
      exact decide_eq_true ⟨rfl, hleap⟩
    · rw [daysBeforeYear_cycles hb hc (by omega)]
      exact hdays
  · next hlast =>
    have hn100 : n100 < 4 := by omega
    have hn4 : n4 < 25 := by omega
    have hn1 : n1 < 4 := by omega
    apply isDate_monthDay (by omega) (isLeap_cycles hn100 hn4 hn1)
    · split <;> omega
    · rw [daysBeforeYear_cycles hn100 hn4 hn1]
      omega

theorem ord2ymd_year_le {n : ℕ} (h : 1 ≤ n) (hn : n ≤ 3652059) : (ord2ymd n).1 ≤ 9999 := by
  obtain ⟨hdate, hord⟩ := ymd2ord_ord2ymd h
  have hday := hdate.day_pos
  simp only [ymd2ord, daysBeforeYear] at hord
  omega

/-! ## The text of a moment

The text has its numbers at fixed places, but for the fraction, which is left out where it is zero.
What is read back is the moment. -/

/-- The microseconds of a day, of which all have the same number. -/
def dayMicros : ℤ := 86400000000

/-- The number of 1 January 1970, counted from year 1. -/
def epochOrd : ℤ := 719163

/-- A moment of the years 1 to 9999: those a `datetime` can hold. -/
def InRange (t : ℤ) : Prop := -62135596800000000 ≤ t ∧ t < 253402300800000000

instance (t : ℤ) : Decidable (InRange t) := inferInstanceAs (Decidable (_ ∧ _))

/-- The microseconds of a second, left out where there are none, and with six digits otherwise. -/
def fraction (micros : ℕ) : List Char := if micros = 0 then [] else '.' :: padded 10 6 micros

/-- `isoformat` of an aware UTC datetime: the date, the time, and `+00:00`. -/
def isoformat (t : ℤ) : List Char :=
  let date := ord2ymd (t / dayMicros + epochOrd).toNat
  let micros := (t % dayMicros).toNat
  padded 10 4 date.1 ++ '-' :: (padded 10 2 date.2.1 ++ '-' :: (padded 10 2 date.2.2 ++ 'T' ::
    (padded 10 2 (micros / 3600000000) ++ ':' :: (padded 10 2 (micros / 60000000 % 60) ++ ':' ::
      (padded 10 2 (micros / 1000000 % 60) ++ (fraction (micros % 1000000) ++
        "+00:00".toList))))))

/-- The text goes on with a character, which is taken off. -/
def expect (c : Char) : List Char → Option (List Char)
  | [] => none
  | c' :: s => if c' = c then some s else none

/-- The fraction of a second, where the text has one; otherwise it is zero, and nothing is taken
off. -/
def takeFraction : List Char → Option (ℕ × List Char)
  | '.' :: s => takeNumber 10 6 s
  | s => some (0, s)

/-- The sign of an offset, as a factor. -/
def takeSign : List Char → Option (ℤ × List Char)
  | '+' :: s => some (1, s)
  | '-' :: s => some (-1, s)
  | _ => none

/-- `fromisoformat`, on the texts of the form that `isoformat` gives an aware datetime: the
date, any separator, the time and the offset from UTC. -/
def fromisoformat (s : List Char) : Option ℤ := do
  let (year, s) ← takeNumber 10 4 s
  let s ← expect '-' s
  let (month, s) ← takeNumber 10 2 s
  let s ← expect '-' s
  let (day, s) ← takeNumber 10 2 s
  let s ← s.tail?
  let (hour, s) ← takeNumber 10 2 s
  let s ← expect ':' s
  let (minute, s) ← takeNumber 10 2 s
  let s ← expect ':' s
  let (second, s) ← takeNumber 10 2 s
  let (micros, s) ← takeFraction s
  let (sign, s) ← takeSign s
  let (offsetHours, s) ← takeNumber 10 2 s
  let s ← expect ':' s
  let (offsetMinutes, s) ← takeNumber 10 2 s
  if IsDate year month day ∧ hour < 24 ∧ minute < 60 ∧ second < 60 ∧
      offsetHours < 24 ∧ offsetMinutes < 60 ∧ s = [] then
    some ((ymd2ord year month day - epochOrd) * dayMicros +
      (hour * 3600 + minute * 60 + second) * 1000000 + micros -
      sign * (offsetHours * 3600 + offsetMinutes * 60) * 1000000)
  else none

@[simp] theorem expect_cons (c : Char) (s : List Char) : expect c (c :: s) = some s := by
  simp [expect]

/-- The fraction ends where the text does not go on with a point. -/
theorem takeFraction_append {micros : ℕ} {rest : List Char} (h : micros < 1000000)
    (hrest : ∀ s, rest ≠ '.' :: s) :
    takeFraction (fraction micros ++ rest) = some (micros, rest) := by
  rw [fraction]
  split
  · next hzero =>
    rw [hzero]
    rcases rest with _ | ⟨c, s⟩
    · rfl
    · rw [List.nil_append, takeFraction]
      rintro s' heq
      exact hrest s' heq
  · exact takeNumber_padded (by decide) h rest

/-- The text of a date and a time is read as that date and time, with a fraction or without. -/
theorem fromisoformat_text {year month day hour minute second micros : ℕ}
    (hdate : IsDate year month day) (hyear : year < 10 ^ 4) (hmonth : month < 10 ^ 2)
    (hday : day < 10 ^ 2) (hhour : hour < 24) (hminute : minute < 60) (hsecond : second < 60)
    (hmicros : micros < 1000000) :
    fromisoformat (padded 10 4 year ++ '-' :: (padded 10 2 month ++ '-' :: (padded 10 2 day ++
        'T' :: (padded 10 2 hour ++ ':' :: (padded 10 2 minute ++ ':' :: (padded 10 2 second ++
          (fraction micros ++ "+00:00".toList))))))) =
      some ((ymd2ord year month day - epochOrd) * dayMicros +
        (hour * 3600 + minute * 60 + second) * 1000000 + micros) := by
  have hten : 10 ≤ 16 := by decide
  have hhour' : hour < 10 ^ 2 := Nat.lt_trans hhour (by decide)
  have hminute' : minute < 10 ^ 2 := Nat.lt_trans hminute (by decide)
  have hsecond' : second < 10 ^ 2 := Nat.lt_trans hsecond (by decide)
  -- one part of the text after another
  refine Option.bind_eq_some_iff.mpr ⟨_, takeNumber_padded hten hyear _, ?_⟩
  refine Option.bind_eq_some_iff.mpr ⟨_, expect_cons '-' _, ?_⟩
  refine Option.bind_eq_some_iff.mpr ⟨_, takeNumber_padded hten hmonth _, ?_⟩
  refine Option.bind_eq_some_iff.mpr ⟨_, expect_cons '-' _, ?_⟩
  refine Option.bind_eq_some_iff.mpr ⟨_, takeNumber_padded hten hday _, ?_⟩
  refine Option.bind_eq_some_iff.mpr ⟨_, rfl, ?_⟩
  refine Option.bind_eq_some_iff.mpr ⟨_, takeNumber_padded hten hhour' _, ?_⟩
  refine Option.bind_eq_some_iff.mpr ⟨_, expect_cons ':' _, ?_⟩
  refine Option.bind_eq_some_iff.mpr ⟨_, takeNumber_padded hten hminute' _, ?_⟩
  refine Option.bind_eq_some_iff.mpr ⟨_, expect_cons ':' _, ?_⟩
  refine Option.bind_eq_some_iff.mpr ⟨_, takeNumber_padded hten hsecond' _, ?_⟩
  refine Option.bind_eq_some_iff.mpr ⟨_, takeFraction_append hmicros (by simp), ?_⟩
  -- the offset is `+00:00`
  refine Option.bind_eq_some_iff.mpr ⟨(1, ['0', '0', ':', '0', '0']), rfl, ?_⟩
  refine Option.bind_eq_some_iff.mpr ⟨(0, [':', '0', '0']), rfl, ?_⟩
  refine Option.bind_eq_some_iff.mpr ⟨['0', '0'], rfl, ?_⟩
  refine Option.bind_eq_some_iff.mpr ⟨(0, []), rfl, ?_⟩
  dsimp only
  rw [if_pos ⟨hdate, hhour, hminute, hsecond, by decide, by decide, rfl⟩]
  congr 1
  omega

/-- The day of a moment, and the microseconds of the day: both fit the widths they are written
with. -/
theorem InRange.parts {t : ℤ} (h : InRange t) :
    (1 ≤ (t / dayMicros + epochOrd).toNat ∧ (t / dayMicros + epochOrd).toNat ≤ 3652059) ∧
      (t % dayMicros).toNat < 86400000000 ∧
      (((t / dayMicros + epochOrd).toNat : ℤ) - epochOrd) * dayMicros +
        ((t % dayMicros).toNat : ℤ) = t := by
  obtain ⟨hmin, hmax⟩ := h
  simp only [dayMicros, epochOrd]
  omega

/-- **The text of a moment** of the years 1 to 9999 is read back. -/
theorem fromisoformat_isoformat {t : ℤ} (h : InRange t) :
    fromisoformat (isoformat t) = some t := by
  obtain ⟨⟨hord, hord'⟩, hmicros, hdays⟩ := h.parts
  obtain ⟨hdate, hday⟩ := ymd2ord_ord2ymd hord
  have hyear := ord2ymd_year_le hord hord'
  have hmonth := hdate.month_le
  have hdayLe := Nat.le_trans hdate.day_le (daysInMonth_le hmonth)
  rw [isoformat]
  generalize (t % dayMicros).toNat = micros at hmicros hdays
  rw [fromisoformat_text hdate (by omega) (by omega) (by omega) (by omega) (by omega) (by omega)
    (Nat.mod_lt _ (by decide)), hday]
  generalize (((t / dayMicros + epochOrd).toNat : ℤ) - epochOrd) * dayMicros = days at hdays ⊢
  congr 1
  omega

/-! ## Datetimes with any offset

A text may come with an offset that is not zero, or with none at all. The clock is what is written;
the moment is what it means. -/

/-- A `datetime`: the microseconds its clock shows since 1970, and its offset from UTC in minutes. A
naive one has no offset. -/
structure Datetime : Type where
  clock : ℤ
  clock_range : InRange clock
  offset : Option ℤ
  offset_range : ∀ m ∈ offset, m.natAbs < 1440

/-- The date and the time that a clock shows, without any offset. -/
def clockText (t : ℤ) : List Char :=
  let date := ord2ymd (t / dayMicros + epochOrd).toNat
  let micros := (t % dayMicros).toNat
  padded 10 4 date.1 ++ '-' :: (padded 10 2 date.2.1 ++ '-' :: (padded 10 2 date.2.2 ++ 'T' ::
    (padded 10 2 (micros / 3600000000) ++ ':' :: (padded 10 2 (micros / 60000000 % 60) ++ ':' ::
      (padded 10 2 (micros / 1000000 % 60) ++ fraction (micros % 1000000))))))

/-- An offset of so many minutes: the sign, two digits of hours and two of minutes. A naive datetime
has no such text. -/
def offsetText : Option ℤ → List Char
  | none => []
  | some m => (if m < 0 then '-' else '+') ::
      (padded 10 2 (m.natAbs / 60) ++ ':' :: padded 10 2 (m.natAbs % 60))

/-- `isoformat`: what the clock shows, and the offset if there is one. -/
def Datetime.isoformat (d : Datetime) : List Char := clockText d.clock ++ offsetText d.offset

/-- The moment; a naive datetime is taken as UTC. It may lie outside the years the clock can
show. -/
def Datetime.timestamp (d : Datetime) : ℤ := d.clock - d.offset.getD 0 * 60000000

/-- Read a date and a time, and give back what follows them. -/
def takeClock (s : List Char) : Option (ℤ × List Char) := do
  let (year, s) ← takeNumber 10 4 s
  let s ← expect '-' s
  let (month, s) ← takeNumber 10 2 s
  let s ← expect '-' s
  let (day, s) ← takeNumber 10 2 s
  let s ← expect 'T' s
  let (hour, s) ← takeNumber 10 2 s
  let s ← expect ':' s
  let (minute, s) ← takeNumber 10 2 s
  let s ← expect ':' s
  let (second, s) ← takeNumber 10 2 s
  let (micros, s) ← takeFraction s
  return ((ymd2ord year month day - epochOrd) * dayMicros +
    (hour * 3600 + minute * 60 + second) * 1000000 + micros, s)

/-- Read an offset, up to the end; an empty text is that of a naive datetime. -/
def takeOffset : List Char → Option (Option ℤ)
  | [] => some none
  | s => do
    let (sign, s) ← takeSign s
    let (hours, s) ← takeNumber 10 2 s
    let s ← expect ':' s
    let (minutes, s) ← takeNumber 10 2 s
    if s = [] then some (some (sign * (hours * 60 + minutes))) else none

/-- Read a text of the form that `isoformat` gives. A clock or an offset out of range is refused. -/
def Datetime.read (s : List Char) : Option Datetime := do
  let (clock, s) ← takeClock s
  let offset ← takeOffset s
  if h : InRange clock ∧ ∀ m ∈ offset, m.natAbs < 1440 then some ⟨clock, h.1, offset, h.2⟩ else none

theorem takeClock_clockText {t : ℤ} {rest : List Char} (h : InRange t)
    (hrest : ∀ s, rest ≠ '.' :: s) : takeClock (clockText t ++ rest) = some (t, rest) := by
  have hten : 10 ≤ 16 := by decide
  obtain ⟨⟨hord, hord'⟩, hmicros, hdays⟩ := h.parts
  obtain ⟨hdate, hday⟩ := ymd2ord_ord2ymd hord
  have hyear := ord2ymd_year_le hord hord'
  have hmonth := hdate.month_le
  have hdayLe := Nat.le_trans hdate.day_le (daysInMonth_le hmonth)
  rw [clockText]
  generalize (t % dayMicros).toNat = micros at hmicros hdays
  simp only [List.append_assoc, List.cons_append]
  -- one part of the text after another
  refine Option.bind_eq_some_iff.mpr ⟨_, takeNumber_padded hten (by omega) _, ?_⟩
  refine Option.bind_eq_some_iff.mpr ⟨_, expect_cons '-' _, ?_⟩
  refine Option.bind_eq_some_iff.mpr ⟨_, takeNumber_padded hten (by omega) _, ?_⟩
  refine Option.bind_eq_some_iff.mpr ⟨_, expect_cons '-' _, ?_⟩
  refine Option.bind_eq_some_iff.mpr ⟨_, takeNumber_padded hten (by omega) _, ?_⟩
  refine Option.bind_eq_some_iff.mpr ⟨_, expect_cons 'T' _, ?_⟩
  refine Option.bind_eq_some_iff.mpr ⟨_, takeNumber_padded hten (by omega) _, ?_⟩
  refine Option.bind_eq_some_iff.mpr ⟨_, expect_cons ':' _, ?_⟩
  refine Option.bind_eq_some_iff.mpr ⟨_, takeNumber_padded hten (by omega) _, ?_⟩
  refine Option.bind_eq_some_iff.mpr ⟨_, expect_cons ':' _, ?_⟩
  refine Option.bind_eq_some_iff.mpr ⟨_, takeNumber_padded hten (by omega) _, ?_⟩
  refine Option.bind_eq_some_iff.mpr
    ⟨_, takeFraction_append (Nat.mod_lt _ (by decide)) hrest, ?_⟩
  dsimp only
  rw [hday]
  generalize (((t / dayMicros + epochOrd).toNat : ℤ) - epochOrd) * dayMicros = days at hdays ⊢
  congr 2
  omega

theorem takeOffset_offsetText {offset : Option ℤ} (h : ∀ m ∈ offset, m.natAbs < 1440) :
    takeOffset (offsetText offset) = some offset := by
  rcases offset with _ | m
  · rfl
  have hm := h m rfl
  have hten : 10 ≤ 16 := by decide
  have hsign : takeSign (offsetText (some m)) = some (if m < 0 then -1 else 1,
      padded 10 2 (m.natAbs / 60) ++ ':' :: padded 10 2 (m.natAbs % 60)) := by
    rw [offsetText]
    split
    · rfl
    · rfl
  refine Option.bind_eq_some_iff.mpr ⟨_, hsign, ?_⟩
  refine Option.bind_eq_some_iff.mpr ⟨_, takeNumber_padded hten (by omega) _, ?_⟩
  refine Option.bind_eq_some_iff.mpr ⟨_, expect_cons ':' _, ?_⟩
  have hminutes := takeNumber_padded hten (show m.natAbs % 60 < 10 ^ 2 by omega) []
  rw [List.append_nil] at hminutes
  refine Option.bind_eq_some_iff.mpr ⟨_, hminutes, ?_⟩
  dsimp only
  rw [if_pos rfl]
  congr 2
  split <;> omega

/-- **A datetime's text is read back**, whatever its offset. -/
theorem Datetime.read_isoformat (d : Datetime) : read d.isoformat = some d := by
  have hrest : ∀ s, offsetText d.offset ≠ '.' :: s := by
    intro s
    rcases d.offset with _ | m
    · exact List.cons_ne_nil _ _ ∘ Eq.symm
    · rw [offsetText]
      split <;> simp
  refine Option.bind_eq_some_iff.mpr ⟨_, takeClock_clockText d.clock_range hrest, ?_⟩
  refine Option.bind_eq_some_iff.mpr ⟨_, takeOffset_offsetText d.offset_range, ?_⟩
  exact dif_pos ⟨d.clock_range, d.offset_range⟩

end Isoformat
