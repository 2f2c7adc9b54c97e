/-
# Days of the week

Key definitions: `Weekday`, `Weekday.code`, `Weekday.ofCode?`, `Weekday.daysAfter`,
`Date.weekday`.
Key theorems: `Weekday.ofCode_code`.
-/
import Recurrence.Calendar.Date
import Recurrence.Text.Split

namespace Recurrence

inductive Weekday
  | monday | tuesday | wednesday | thursday | friday | saturday | sunday
  deriving DecidableEq

namespace Weekday

/-- The days of the week from Monday to Sunday. -/
def all : List Weekday :=
  [monday, tuesday, wednesday, thursday, friday, saturday, sunday]

/-- Days after Monday. -/
def index : Weekday → Nat
  | monday => 0
  | tuesday => 1
  | wednesday => 2
  | thursday => 3
  | friday => 4
  | saturday => 5
  | sunday => 6

/-- The weekday that many days after Monday, up to Sunday. -/
def ofIndex : Nat → Weekday
  | 0 => monday
  | 1 => tuesday
  | 2 => wednesday
  | 3 => thursday
  | 4 => friday
  | 5 => saturday
  | _ => sunday

/-- The two letters that stand for a weekday in rules. -/
def code : Weekday → String
  | monday => "MO"
  | tuesday => "TU"
  | wednesday => "WE"
  | thursday => "TH"
  | friday => "FR"
  | saturday => "SA"
  | sunday => "SU"

/-- The weekday of two letters, whatever their case. -/
def ofCode? (text : List Char) : Option Weekday :=
  all.find? fun day => day.code.toList = Text.upperChars text

/-- Days from one weekday forward to another, in `0..6`. -/
def daysAfter (day start : Weekday) : Nat :=
  (7 + day.index - start.index) % 7

/-- The weekday of the day of the given number: day 0 is a Thursday. -/
def ofDay (n : Int) : Weekday :=
  ofIndex ((n + 3) % 7).toNat

theorem ofIndex_index (day : Weekday) : ofIndex day.index = day := by
  cases day <;> rfl

theorem index_lt (day : Weekday) : day.index < 7 := by
  cases day <;> decide

theorem ofCode_code (day : Weekday) : ofCode? day.code.toList = some day := by
  cases day <;> decide

end Weekday

/-- The weekday a date falls on. -/
def Date.weekday (d : Date) : Weekday :=
  Weekday.ofDay d.dayNumber

/-- The latest date, not after the given one, that falls on the weekday. -/
def Date.startOfWeek (d : Date) (weekStart : Weekday) : Date :=
  d.addDays (-(d.weekday.daysAfter weekStart : Int))

end Recurrence
