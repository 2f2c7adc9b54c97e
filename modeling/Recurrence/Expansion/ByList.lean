/-
# Lists that select days and times

A list of a rule has two uses: it lists the values of its field within a
period, or it accepts some of the candidates that were listed otherwise. Both
rest on the same tests: an index counts from the end of its month or year if it
is negative, a weekday's number counts its occurrences, and a week belongs to
the year that holds most of it.

Key definitions: `ByList`, `ByList.accepts`, `ByList.values`.
-/
import Recurrence.Calendar.WeekYear
import Recurrence.Expansion.Stamp

namespace Recurrence

open Calendar

/-- The place from 1 that an index names among `length` places; a negative
index counts from the end. -/
def resolveIndex (index length : Int) : Option Int :=
  let place := if index > 0 then index else length + 1 + index
  if 1 ≤ place ∧ place ≤ length then some place else none

/-- A count of days as a signed number of 32 bits: from 2³¹ on it is negative. -/
def signedDay (day : Nat) : Int :=
  (day : Int).bmod Int32.size

namespace OrdinalWeekday

/-- Whether a date is the weekday, and, if there is a number, that occurrence
of it within the month or the year. -/
def accepts (entry : OrdinalWeekday) (inYear : Bool) (d : Date) : Bool :=
  d.weekday == entry.weekday &&
    (entry.number == 0 ||
      let (index, length) : Int × Int :=
        if inYear then (d.dayOfYear, yearLength d.year)
        else (signedDay d.day - 1, monthLength d.year d.month)
      entry.number == index.tdiv 7 + 1 || entry.number == -((length - 1 - index).tdiv 7 + 1))

end OrdinalWeekday

/-- A list of a rule and what its entries mean. -/
inductive ByList
  | months (months : List Nat)
  | monthDays (days : List Int)
  | yearDays (days : List Int)
  /-- Weeks that begin on `weekStart`. -/
  | weeks (weeks : List Int) (weekStart : Weekday)
  /-- Weekdays whose numbers count within the year or within the month. -/
  | weekdays (days : List OrdinalWeekday) (inYear : Bool)
  | hours (hours : List Nat)
  | minutes (minutes : List Nat)
  | seconds (seconds : List Nat)

namespace ByList

/-- The field that a list selects values of. -/
def field : ByList → Field
  | months _ => .month
  | monthDays _ | yearDays _ | weeks _ _ | weekdays _ _ => .day
  | hours _ => .hour
  | minutes _ => .minute
  | seconds _ => .second

/-- Whether one of the weeks is that of a date. -/
def acceptsWeek (weeks : List Int) (weekStart : Weekday) (d : Date) : Bool :=
  let (week, count) := d.weekNumber weekStart
  weeks.any fun index => resolveIndex index count == some week

/-- Whether a list accepts a stamp, of which the fields down to the list's own
count. -/
def accepts (list : ByList) (s : Stamp) : Bool :=
  match list with
  | months ns => ns.contains s.month
  | monthDays days =>
    days.any fun index => resolveIndex index (monthLength s.year s.month) == some (signedDay s.day)
  | yearDays days =>
    let day := s.date.dayOfYear + 1
    days.any fun index => resolveIndex index (yearLength s.year) == some day
  | weeks indices weekStart => acceptsWeek indices weekStart s.date
  | weekdays days inYear => days.any (·.accepts inYear s.date)
  | hours ns => ns.contains s.hour
  | minutes ns => ns.contains s.minute
  | seconds ns => ns.contains s.second

/-- Adds a number to an ascending list, unless it is there. -/
def insert (n : Nat) : List Nat → List Nat
  | [] => [n]
  | m :: rest => if n < m then n :: m :: rest else if n = m then m :: rest else m :: insert n rest

/-- The numbers of a list in ascending order, each once. -/
def ascending (ns : List Nat) : List Nat :=
  ns.foldr insert []

/-- The days of the month of a stamp that pass a test. -/
def daysWhere (s : Stamp) (test : Date → Bool) : List Nat :=
  (List.range' 1 (monthLength s.year s.month)).filter fun day => test ⟨s.year, s.month, day⟩

/-- The values that a list selects in the period that the fields of a stamp
above the list's own name, in ascending order and each once. -/
def values (list : ByList) (s : Stamp) : List Nat :=
  match list with
  | months ns | hours ns | minutes ns | seconds ns => ascending ns
  | monthDays days =>
    ascending <| days.filterMap fun index =>
      (resolveIndex index (monthLength s.year s.month)).map Int.toNat
  | yearDays days =>
    let before := (⟨s.year, s.month, 1⟩ : Date).dayOfYear
    let length := monthLength s.year s.month
    ascending <| days.filterMap fun index =>
      ((resolveIndex index (yearLength s.year)).map (· - before)).bind fun day =>
        if 1 ≤ day ∧ day ≤ length then some day.toNat else none
  | weeks indices weekStart => daysWhere s (acceptsWeek indices weekStart)
  | weekdays days inYear => daysWhere s fun d => days.any (·.accepts inYear d)

end ByList

end Recurrence
