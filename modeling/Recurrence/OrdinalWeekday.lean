/-
# Weekdays with an occurrence number

An entry of a list of weekdays names every such day, or with a number the n-th
one in its month or year, counted from the end if the number is negative.

Key definitions: `OrdinalWeekday`, `OrdinalWeekday.of`, `OrdinalWeekday.read`,
`OrdinalWeekday.text`.
-/
import Recurrence.Calendar.Weekday
import Recurrence.Fault
import Recurrence.Text.Blank

namespace Recurrence

/-- A weekday and which of its occurrences is meant; 0 means all of them. -/
structure OrdinalWeekday where
  number : Int
  weekday : Weekday
  deriving DecidableEq

namespace OrdinalWeekday

/-- Every occurrence of the weekday. -/
def every (weekday : Weekday) : OrdinalWeekday := ⟨0, weekday⟩

/-- The n-th occurrence of a weekday; a year has room for 53. -/
def of (number : Int) (weekday : Weekday) : Except Refusal OrdinalWeekday :=
  if -53 ≤ number ∧ number ≤ 53 then .ok ⟨number, weekday⟩
  else .error (.weekdayNumber number)

/-- A weekday after its number, if it has one. -/
def chars (day : OrdinalWeekday) : List Char :=
  if day.number = 0 then day.weekday.code.toList
  else (Decimal.integer day.number).toList ++ day.weekday.code.toList

/-- A weekday after its number, if it has one. -/
def text (day : OrdinalWeekday) : String :=
  String.ofList day.chars

/-- A weekday after its number, if it has one; the text is already trimmed. -/
def readChars (text : List Char) : Except Fault OrdinalWeekday :=
  let whole := String.ofList text
  match Weekday.ofCode? (text.drop (text.length - 2)) with
  | none => .error (.weekday whole)
  | some weekday =>
    match text.take (text.length - 2) with
    | [] => .ok (every weekday)
    | digits =>
      match Decimal.signed? (Int32.size / 2) digits with
      | none => .error (.weekdayNumber whole)
      | some number =>
        if number = 0 then .error (.weekdayZero whole)
        else (of number weekday).mapError .refused

/-- A weekday after its number, if it has one. -/
def read (text : String) : Except Fault OrdinalWeekday :=
  readChars (Text.trimChars text.toList)

end OrdinalWeekday

end Recurrence
