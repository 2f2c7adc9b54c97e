/-
# Dates of the proleptic Gregorian calendar

A date is a year, a month and a day of the month, as written: it need not
exist. The calendar reaches from the first day of the year -262143 to the last
day of the year 262142, and its days are numbered from 1 January 1970, which
is day 0. A date whose day lies past the end of its month counts on into the
following months.

Key definitions: `Date`, `isLeapYear`, `monthLength`, `Date.dayNumber`,
`Date.ofDays`, `Date.ofDayNumber`.
Key theorems: `yearStart_succ`.
-/

namespace Recurrence

/-- A year, a month and a day of the month. -/
structure Date where
  year : Int
  month : Nat
  day : Nat
  deriving DecidableEq

namespace Calendar

/-! ### Years -/

/-- The first year of the calendar. -/
def firstYear : Int := -262143

/-- The last year of the calendar. -/
def lastYear : Int := 262142

/-- Whether the calendar holds the year. -/
def hasYear (year : Int) : Bool :=
  firstYear ≤ year && year ≤ lastYear

/-- Every fourth year has a leap day, except the centuries that 400 does not
divide. -/
def gregorianLeap (year : Int) : Bool :=
  year % 4 == 0 && (year % 100 != 0 || year % 400 == 0)

/-- Whether the calendar holds a 29 February of the year. -/
def isLeapYear (year : Int) : Bool :=
  hasYear year && gregorianLeap year

/-- The number of days of the year; years outside the calendar count as common
years. -/
def yearLength (year : Int) : Nat :=
  if isLeapYear year then 366 else 365

/-- The number of the first day of the year. -/
def yearStart (year : Int) : Int :=
  365 * (year - 1970) + ((year - 1) / 4 - (year - 1) / 100 + (year - 1) / 400) - 477

/-- The number of the first day of the calendar. -/
def firstDay : Int := yearStart firstYear

/-- The number of the last day of the calendar. -/
def lastDay : Int := yearStart (lastYear + 1) - 1

/-- The year that holds the day of the given number: 400 years have 146097
days, and the year found by that ratio is at most one off. -/
def yearOfDay (n : Int) : Int :=
  let guess := 1970 + 400 * n / 146097
  if n < yearStart guess then guess - 1
  else if yearStart (guess + 1) ≤ n then guess + 1
  else guess

theorem yearStart_succ (year : Int) :
    yearStart (year + 1) = yearStart year + if gregorianLeap year then 366 else 365 := by
  simp only [yearStart, gregorianLeap, Bool.and_eq_true, Bool.or_eq_true, beq_iff_eq, bne_iff_ne]
  split <;> omega

/-! ### Months -/

/-- The number of days of each month of a year with or without a leap day; 0
for what is no month. -/
def daysInMonth (leap : Bool) : Nat → Nat
  | 1 | 3 | 5 | 7 | 8 | 10 | 12 => 31
  | 4 | 6 | 9 | 11 => 30
  | 2 => if leap then 29 else 28
  | _ => 0

/-- The number of days of a year before the first of the month. -/
def daysBefore (leap : Bool) (month : Nat) : Nat :=
  let feb := if leap then 29 else 28
  match month with
  | 0 | 1 => 0
  | 2 => 31
  | 3 => 31 + feb
  | 4 => 62 + feb
  | 5 => 92 + feb
  | 6 => 123 + feb
  | 7 => 153 + feb
  | 8 => 184 + feb
  | 9 => 215 + feb
  | 10 => 245 + feb
  | 11 => 276 + feb
  | _ => 306 + feb

/-- The number of days of the month; 0 if the calendar does not hold it. -/
def monthLength (year : Int) (month : Nat) : Nat :=
  if hasYear year then daysInMonth (gregorianLeap year) month else 0

/-- The month that holds a day of the year, counted from 0: the last one that
does not begin after it. -/
def monthOfDay (leap : Bool) (dayOfYear : Nat) : Nat :=
  ([12, 11, 10, 9, 8, 7, 6, 5, 4, 3, 2].find? (daysBefore leap · ≤ dayOfYear)).getD 1

end Calendar

open Calendar

namespace Date

/-! ### Day numbers -/

/-- Whether the calendar holds the date. -/
def inCalendar (d : Date) : Bool :=
  1 ≤ d.day && d.day ≤ monthLength d.year d.month

/-- The day number of a date of the calendar, by plain counting. -/
def days (d : Date) : Int :=
  yearStart d.year + daysBefore (gregorianLeap d.year) d.month + (d.day - 1)

/-- The date of the day of the given number, by plain counting. -/
def ofDays (n : Int) : Date :=
  let year := yearOfDay n
  let leap := gregorianLeap year
  let dayOfYear := (n - yearStart year).toNat
  let month := monthOfDay leap dayOfYear
  { year, month, day := dayOfYear - daysBefore leap month + 1 }

/-- The first of the month of a date: the month is moved into the year, and a
year outside the calendar is taken for the calendar's beginning. -/
def monthStart (d : Date) : Int :=
  if hasYear d.year then
    ({ d with month := min (max d.month 1) 12, day := 1 } : Date).days
  else firstDay

/-- The number of the day a date falls on. A day past the end of its month
counts on, unless it leaves the calendar: then the first of the month stands
for it. -/
def dayNumber (d : Date) : Int :=
  let n := d.monthStart + (d.day - 1)
  if firstDay ≤ n ∧ n ≤ lastDay then n else d.monthStart

/-- The date of the day of the given number, the nearer end of the calendar
for a number outside it. -/
def ofDayNumber (n : Int) : Date :=
  ofDays (if firstDay ≤ n ∧ n ≤ lastDay then n else if n < 0 then firstDay else lastDay)

/-- The days from the second date to the first. -/
def daysSince (d earlier : Date) : Int :=
  d.dayNumber - earlier.dayNumber

/-- The date that many days later. -/
def addDays (d : Date) (n : Int) : Date :=
  ofDayNumber (d.dayNumber + n)

/-- The day of the year a date falls on, counted from 0. -/
def dayOfYear (d : Date) : Int :=
  d.dayNumber - yearStart (yearOfDay d.dayNumber)

/-! ### Order -/

/-- Dates are ordered by year, month and day. -/
protected def lt (a b : Date) : Prop :=
  a.year < b.year ∨
    a.year = b.year ∧ (a.month < b.month ∨ a.month = b.month ∧ a.day < b.day)

instance : LT Date := ⟨Date.lt⟩

instance (a b : Date) : Decidable (a < b) :=
  inferInstanceAs (Decidable (_ ∨ _))

end Date

end Recurrence
