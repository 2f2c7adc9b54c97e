/-
# Week numbers

A week belongs to the year that holds at least four of its days, so week one is
the first week with four days in the year. It may begin up to three days
before the year, and the last week may end in the following year.

Key definitions: `WeekYear`, `WeekYear.of`, `WeekYear.weekOf?`, `Date.weekNumber`.
-/
import Recurrence.Calendar.Weekday

namespace Recurrence

open Calendar

/-- Where week one of a year begins, as a day of the year counted from 0, and
the number of weeks that belong to the year. -/
structure WeekYear where
  firstDay : Int
  weeks : Int
  deriving DecidableEq

namespace WeekYear

/-- The weeks of a year, each beginning on the given weekday. -/
def of (year : Int) (weekStart : Weekday) : WeekYear :=
  let offset : Int := (⟨year, 1, 1⟩ : Date).weekday.daysAfter weekStart
  let firstDay := if offset ≤ 3 then -offset else 7 - offset
  let span := (yearLength year : Int) - firstDay
  { firstDay, weeks := if span % 7 ≥ 4 then span / 7 + 1 else span / 7 }

/-- The number of the week that holds a day of the year, if that week belongs
to the year. -/
def weekOf? (w : WeekYear) (dayOfYear : Int) : Option Int :=
  let week := (dayOfYear - w.firstDay) / 7 + 1
  if w.firstDay ≤ dayOfYear ∧ week ≤ w.weeks then some week else none

end WeekYear

/-- The number of the week of a date within the year the week belongs to, and
how many weeks that year has. -/
def Date.weekNumber (d : Date) (weekStart : Weekday) : Int × Int :=
  let this := WeekYear.of d.year weekStart
  match this.weekOf? d.dayOfYear with
  | some week => (week, this.weeks)
  | none =>
    if d.dayOfYear < this.firstDay then
      let last := WeekYear.of (d.year - 1) weekStart
      (last.weeks, last.weeks)
    else (1, (WeekYear.of (d.year + 1) weekStart).weeks)

end Recurrence
