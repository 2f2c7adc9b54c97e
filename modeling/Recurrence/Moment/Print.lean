/-
# Writing dates

Key definitions: `Date.chars`, `TimeOfDay.chars`, `Moment.chars`, `Moment.text`.
-/
import Recurrence.Moment.Basic
import Recurrence.Text.Decimal

namespace Recurrence

/-- A date as `YYYYMMDD`. -/
def Date.chars (d : Date) : List Char :=
  Decimal.year d.year ++ Decimal.padded 2 d.month ++ Decimal.padded 2 d.day

/-- A time as `HHMMSS`. -/
def TimeOfDay.chars (t : TimeOfDay) : List Char :=
  Decimal.padded 2 t.hour ++ Decimal.padded 2 t.minute ++ Decimal.padded 2 t.second

namespace Moment

/-- A moment as `YYYYMMDD` or `YYYYMMDDTHHMMSS`. -/
def chars (m : Moment) : List Char :=
  match m.time with
  | none => m.date.chars
  | some t => m.date.chars ++ 'T' :: t.chars

/-- A moment as `YYYYMMDD` or `YYYYMMDDTHHMMSS`. -/
def text (m : Moment) : String :=
  String.ofList m.chars

end Moment

end Recurrence
