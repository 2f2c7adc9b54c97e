/-
# Dates as text

A date is written as `YYYYMMDD`, a date-time as `YYYYMMDDTHHMMSS`. Text may add
a `Z` to a date-time, which marks it as UTC.

Key definitions: `Moment.chars`, `Moment.text`, `Moment.readMarked`, `Moment.read`.
-/
import Recurrence.Fault
import Recurrence.Text.Blank

namespace Recurrence

open Calendar

namespace Moment

/-- Where the parts of a date text stand: whether it has a time, and whether
the time carries the mark of UTC. -/
def shape? (text : List Char) : Option (Bool × Bool) :=
  let isT := text[8]?.map Char.toUpper == some 'T'
  let isZ := text[15]?.map Char.toUpper == some 'Z'
  if text.length = 8 then some (false, false)
  else if text.length = 15 && isT then some (true, false)
  else if text.length = 16 && isT && isZ then some (true, true)
  else none

/-- The number that some places of a date text stand for. -/
def digitsAt (text : List Char) (start count : Nat) : Except Fault Nat :=
  let part := (text.drop start).take count
  if part.all Char.isDigit then .ok (Decimal.value part)
  else .error (.dateDigits (String.ofList text))

/-- A moment and whether its text marks it as UTC; the text is already
trimmed. -/
def readChars (text : List Char) : Except Fault (Moment × Bool) := do
  let whole := String.ofList text
  unless text.all (·.toNat < 128) do throw (.dateShape whole)
  let (timed, utc) ← ((shape? text).map Except.ok).getD (throw (.dateShape whole))
  let year ← digitsAt text 0 4
  let month ← digitsAt text 4 2
  let day ← digitsAt text 6 2
  let date : Date := ⟨year, month, day⟩
  unless date.inCalendar do throw (.dateRange whole)
  if timed then
    let hour ← digitsAt text 9 2
    let minute ← digitsAt text 11 2
    let second ← digitsAt text 13 2
    if hour > 24 ∨ minute > 59 ∨ second > 60 ∨ (hour = 24 ∧ (minute ≠ 0 ∨ second ≠ 0)) then
      throw (.timeRange whole)
    return (⟨date, some (.of hour minute second)⟩, utc)
  else
    return (⟨date, none⟩, false)

/-- A moment and whether its text marks it as UTC. -/
def readMarked (text : String) : Except Fault (Moment × Bool) :=
  readChars (Text.trimChars text.toList)

/-- A moment, whether or not its text marks it as UTC. -/
def read (text : String) : Except Fault Moment :=
  (readMarked text).map Prod.fst

end Moment

end Recurrence
