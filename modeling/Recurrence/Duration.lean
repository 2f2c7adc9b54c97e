/-
# Durations

A duration is a signed number of seconds, written as weeks, days, hours,
minutes and seconds: `P1W`, `-PT15M`, `P1DT2H`. Its text is read character by
character; digits gather until the letter of a unit ends the number.

Key definitions: `Duration.read`.
-/
import Recurrence.Fault
import Recurrence.Text.Blank
import Recurrence.Text.Split

namespace Recurrence.Duration

/-- The most seconds a duration may have. -/
def maxSeconds : Nat := 9223372036854775

/-- The most that a number within a duration may be. -/
def maxNumber : Nat := 9223372036854775807

/-- The letters that end a number. -/
def isUnit (c : Char) : Bool :=
  c == 'W' || c == 'D' || c == 'H' || c == 'M' || c == 'S'

/-- The seconds of a unit. Weeks and days stand before the `T` of a duration,
hours, minutes and seconds after it. -/
def unitSeconds? (inTime : Bool) : Char → Option Nat
  | 'W' => if inTime then none else some 604800
  | 'D' => if inTime then none else some 86400
  | 'H' => if inTime then some 3600 else none
  | 'M' => if inTime then some 60 else none
  | 'S' => if inTime then some 1 else none
  | _ => none

/-- What has been read of a duration: the seconds of the units so far, whether
the `T` has passed, the number that has begun, and whether there was a unit. -/
structure Progress where
  seconds : Nat
  inTime : Bool
  number : Option Nat
  sawUnit : Bool
  deriving DecidableEq

/-- One more character of the duration `text`. -/
def step (text : String) (p : Progress) (c : Char) : Except Fault Progress :=
  if c.isDigit then
    .ok { p with number := some (10 * p.number.getD 0 + Decimal.digit c) }
  else if c == 'T' && !p.inTime && p.number.isNone then
    .ok { p with inTime := true }
  else if isUnit c then
    match p.number.filter (· ≤ maxNumber) with
    | none => .error (.duration text)
    | some n =>
      match unitSeconds? p.inTime c with
      | none => .error (.durationUnit c text)
      | some unit =>
        let seconds := p.seconds + n * unit
        if seconds ≤ maxSeconds then .ok { p with seconds, number := none, sawUnit := true }
        else .error (.durationLength text)
  else .error (.duration text)

/-- The sign of a duration and what follows it. -/
def splitSign : List Char → Int × List Char
  | '-' :: rest => (-1, rest)
  | '+' :: rest => (1, rest)
  | text => (1, text)

/-- The seconds of a duration. -/
def read (text : String) : Except Fault Int :=
  match splitSign (Text.upperChars (Text.trimChars text.toList)) with
  | (sign, 'P' :: c :: rest) => do
    let last ← (c :: rest).foldlM (step text) ⟨0, false, none, false⟩
    if last.number = none ∧ last.sawUnit then .ok (sign * last.seconds)
    else .error (.duration text)
  | _ => .error (.duration text)

end Recurrence.Duration
