/-
# What can be wrong with recurrence text

A fault names what is wrong and carries the fragment at fault. A malformed text
is a fault together with the productions that were being read, the outermost
first; a value may also be refused when its parts do not fit together.

Key definitions: `Refusal`, `Fault`, `Malformed`, `inProduction`.
-/
import Recurrence.Moment.Print

namespace Recurrence

/-- Why parts do not make a value. -/
inductive Refusal
  /-- A period from a date to a date-time or the other way round. -/
  | mixedPeriod (start finish : Moment)
  /-- A period that ends before it starts. -/
  | reversedPeriod (start finish : Moment)
  /-- A duration that leads out of the calendar. -/
  | durationTooFar (start : Moment)
  /-- An occurrence number that no year has room for. -/
  | weekdayNumber (number : Int)

namespace Refusal

/-- What is said about a refused value. -/
def message (refusal : Refusal) : String :=
  "invalid argument: " ++ match refusal with
    | mixedPeriod start finish =>
      "period " ++ start.text ++ "/" ++ finish.text ++ " mixes a date with a date-time"
    | reversedPeriod start finish =>
      "period start " ++ start.text ++ " is after its end " ++ finish.text
    | durationTooFar start => "cannot add duration to " ++ start.text
    | weekdayNumber number => "weekday number " ++ Decimal.integer number ++ " out of range"

end Refusal

/-- What is wrong with a text. -/
inductive Fault
  | dateShape (text : String)
  | dateDigits (text : String)
  | dateRange (text : String)
  | timeRange (text : String)
  | duration (text : String)
  | durationUnit (unit : Char) (text : String)
  | durationLength (text : String)
  | weekday (text : String)
  | weekdayNumber (text : String)
  | weekdayZero (text : String)
  | refused (refusal : Refusal)
  | zone (name : String)
  | contentLine (line : String) (column : Nat)
  | duplicateParameter (name : String)
  | valueType (value : String)
  | parameter (name : String)
  | parameterNotAllowed (name : String)
  | frequency (text : String)
  | partWithoutValue (part : String)
  | notPositive (value : String)
  | notNumber (item : String)
  | outOfRange (item : String)
  | rulePart (part : String)
  | duplicateRulePart (rule : String)
  | untilAndCount
  | missingFrequency (rule : String)
  | emptyValue (list : String)
  | notDate (item : String)
  | notDateTime (item : String)
  | periodEnd (text : String)
  | period (text : String) (refusal : Refusal)
  | property (name : String)

namespace Fault

/-- A fragment between single quotes. -/
def quoted (fragment : String) : String :=
  "'" ++ fragment ++ "'"

/-- What is said about a fault. -/
def message : Fault → String
  | dateShape text => "invalid date value " ++ quoted text
  | dateDigits text => "expected digits in date " ++ quoted text
  | dateRange text => "date out of range " ++ quoted text
  | timeRange text => "time out of range " ++ quoted text
  | duration text => "invalid duration " ++ quoted text
  | durationUnit unit text =>
    "misplaced unit " ++ quoted (String.singleton unit) ++ " in duration " ++ quoted text
  | durationLength text => "duration " ++ quoted text ++ " is too long"
  | weekday text => "invalid weekday " ++ quoted text
  | weekdayNumber text => "invalid weekday number " ++ quoted text
  | weekdayZero text => "weekday number must not be zero " ++ quoted text
  | refused refusal => refusal.message
  | zone name => "unknown time zone " ++ quoted name
  | contentLine line column =>
    quoted line ++ " is not a content line (column " ++ Decimal.natural column ++ ")"
  | duplicateParameter name => "duplicate parameter " ++ quoted name
  | valueType value => "unsupported value type " ++ quoted value
  | parameter name => "unknown parameter " ++ quoted name
  | parameterNotAllowed name => "parameter " ++ quoted name ++ " is not allowed here"
  | frequency text => "invalid frequency " ++ quoted text
  | partWithoutValue part => "rule part " ++ quoted part ++ " has no value"
  | notPositive value => quoted value ++ " is not a positive integer"
  | notNumber item => quoted item ++ " is not a number"
  | outOfRange item => quoted item ++ " is out of range"
  | rulePart part => "unknown rule part " ++ quoted part
  | duplicateRulePart rule => "duplicate rule part in " ++ quoted rule
  | untilAndCount => "UNTIL and COUNT are mutually exclusive"
  | missingFrequency rule => "missing FREQ in " ++ quoted rule
  | emptyValue list => "empty value in " ++ quoted list
  | notDate item => quoted item ++ " is not a DATE"
  | notDateTime item => quoted item ++ " is not a DATE-TIME"
  | periodEnd text => "period " ++ quoted text ++ " has no end"
  | period text refusal => "invalid period " ++ quoted text ++ ": " ++ refusal.message
  | property name => "unknown property " ++ quoted name

end Fault

/-- A fault and the productions it was met in, the outermost first. -/
structure Malformed where
  fault : Fault
  productions : List String

namespace Malformed

/-- What is said about a malformed text. -/
def message (error : Malformed) : String :=
  let place := match error.productions with
    | [] => ""
    | productions => " (in " ++ String.intercalate " > " productions ++ ")"
  "malformed recurrence text: " ++ error.fault.message ++ place

end Malformed

/-- A fault met outside any production. -/
def Fault.malformed (fault : Fault) : Malformed :=
  ⟨fault, []⟩

/-- Reads a part of a text as the given production. -/
def inProduction {α : Type} (name : String) (part : Except Malformed α) : Except Malformed α :=
  part.mapError fun error => { error with productions := name :: error.productions }

/-- The result of reading a text that stands in no production. -/
def bare {α : Type} (part : Except Fault α) : Except Malformed α :=
  part.mapError Fault.malformed

end Recurrence
