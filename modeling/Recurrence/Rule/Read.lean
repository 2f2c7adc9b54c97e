/-
# Reading rules

A rule is a list of parts `KEY=VALUE`, separated by semicolons. Their order does
not matter, blank parts and extension parts are skipped, and no key occurs
twice. Every value has a grammar and a range of its own.

Key definitions: `RuleKey`, `RulePart`, `RulePart.read`, `Rule.ofParts`, `Rule.read`.
-/
import Recurrence.Moment.Read
import Recurrence.Rule.Basic

namespace Recurrence

/-! ### Keys -/

/-- The keys of the parts of a rule. -/
inductive RuleKey
  | freq | untilBound | count | interval | wkst | byDay | byMonth | byMonthDay | byWeekNo
  | byYearDay | byHour | byMinute | bySecond | bySetPos
  deriving DecidableEq

namespace RuleKey

/-- The keys of the parts of a rule. -/
def all : List RuleKey :=
  [freq, untilBound, count, interval, wkst, byDay, byMonth, byMonthDay, byWeekNo, byYearDay,
   byHour, byMinute, bySecond, bySetPos]

/-- A key as it is written. -/
def name : RuleKey → String
  | freq => "FREQ"
  | untilBound => "UNTIL"
  | count => "COUNT"
  | interval => "INTERVAL"
  | wkst => "WKST"
  | byDay => "BYDAY"
  | byMonth => "BYMONTH"
  | byMonthDay => "BYMONTHDAY"
  | byWeekNo => "BYWEEKNO"
  | byYearDay => "BYYEARDAY"
  | byHour => "BYHOUR"
  | byMinute => "BYMINUTE"
  | bySecond => "BYSECOND"
  | bySetPos => "BYSETPOS"

/-- The key of a name in capitals. -/
def ofName? (name : String) : Option RuleKey :=
  all.find? (·.name == name)

end RuleKey

/-! ### Values -/

/-- The value of one part of a rule. -/
inductive RulePart
  | freq (frequency : Frequency)
  | finish (bound : Finish)
  | count (n : Nat)
  | interval (n : Nat)
  | wkst (day : Weekday)
  | byDay (days : List OrdinalWeekday)
  | byMonth (months : List Nat)
  | byMonthDay (days : List Int)
  | byWeekNo (weeks : List Int)
  | byYearDay (days : List Int)
  | byHour (hours : List Nat)
  | byMinute (minutes : List Nat)
  | bySecond (seconds : List Nat)
  | bySetPos (positions : List Int)
  deriving DecidableEq

namespace RulePart

/-- The key a value belongs to. -/
def key : RulePart → RuleKey
  | freq _ => .freq
  | finish _ => .untilBound
  | count _ => .count
  | interval _ => .interval
  | wkst _ => .wkst
  | byDay _ => .byDay
  | byMonth _ => .byMonth
  | byMonthDay _ => .byMonthDay
  | byWeekNo _ => .byWeekNo
  | byYearDay _ => .byYearDay
  | byHour _ => .byHour
  | byMinute _ => .byMinute
  | bySecond _ => .bySecond
  | bySetPos _ => .bySetPos

/-- A number whose distance from 0 lies in `low..high`, negative only if
`signed`. -/
def readNumber (low high : Nat) (signed : Bool) (item : List Char) : Except Fault Int :=
  match Decimal.signed? (Int32.size / 2) (Text.trimChars item) with
  | none => .error (.notNumber (String.ofList item))
  | some n =>
    if low ≤ n.natAbs ∧ n.natAbs ≤ high ∧ (signed ∨ 0 ≤ n) then .ok n
    else .error (.outOfRange (String.ofList item))

/-- Numbers separated by commas, which may be negative. -/
def readSigned (high : Nat) (value : List Char) : Except Fault (List Int) :=
  (Text.fields ',' value).mapM (readNumber 1 high true)

/-- Numbers separated by commas, none of them negative. -/
def readUnsigned (low high : Nat) (value : List Char) : Except Fault (List Nat) :=
  (Text.fields ',' value).mapM fun item => (readNumber low high false item).map Int.toNat

/-- A number from 1 on. -/
def readPositive (value : List Char) : Except Fault Nat :=
  match Decimal.unsigned? (UInt32.size - 1) (Text.trimChars value) with
  | some (n + 1) => .ok (n + 1)
  | _ => .error (.notPositive (String.ofList value))

/-- A weekday without a number. -/
def readWeekday (value : List Char) : Except Fault Weekday :=
  match Weekday.ofCode? (Text.trimChars value) with
  | some day => .ok day
  | none => .error (.weekday (String.ofList value))

/-- The bound that a rule ends at. -/
def readBound (value : List Char) : Except Fault Finish :=
  (Moment.readMarked (String.ofList value)).map fun (bound, utc) =>
    if utc then .untilUtc bound else .untilLocal bound

/-- The value of a key. -/
def readValue (value : List Char) : RuleKey → Except Fault RulePart
  | .freq => (Frequency.read (String.ofList value)).map freq
  | .untilBound => (readBound value).map finish
  | .count => (readPositive value).map count
  | .interval => (readPositive value).map interval
  | .wkst => (readWeekday value).map wkst
  | .byDay => ((Text.fields ',' value).mapM fun item =>
      OrdinalWeekday.readChars (Text.trimChars item)).map byDay
  | .byMonth => (readUnsigned 1 12 value).map byMonth
  | .byMonthDay => (readSigned 31 value).map byMonthDay
  | .byWeekNo => (readSigned 53 value).map byWeekNo
  | .byYearDay => (readSigned 366 value).map byYearDay
  | .byHour => (readUnsigned 0 23 value).map byHour
  | .byMinute => (readUnsigned 0 59 value).map byMinute
  | .bySecond => (readUnsigned 0 60 value).map bySecond
  | .bySetPos => (readSigned 366 value).map bySetPos

/-- The key of a part, in capitals and without blanks, and its value, if the
part has one. -/
def split? (part : List Char) : Option (String × List Char) :=
  match part.dropWhile (· != '=') with
  | _ :: value =>
    some (String.ofList (Text.upperChars (Text.trimChars (part.takeWhile (· != '=')))), value)
  | [] => none

/-- A part of a rule; none for an extension. -/
def read (part : List Char) : Except Malformed (Option RulePart) :=
  match split? part with
  | none => .error (Fault.partWithoutValue (String.ofList part)).malformed
  | some (name, value) =>
    inProduction name <| bare <|
      match RuleKey.ofName? name with
      | some key => (readValue value key).map some
      | none =>
        if Parameter.isExtensionName name then .ok none
        else .error (.rulePart (String.ofList part))

end RulePart

/-! ### Rules -/

namespace Rule

/-- The parts of a rule that follow those of the given keys. -/
def readPartsAfter (whole : String) :
    List RuleKey → List (List Char) → Except Malformed (List RulePart)
  | _, [] => .ok []
  | seen, text :: rest => do
    if (Text.trimChars text).isEmpty then readPartsAfter whole seen rest
    else
      match ← RulePart.read text with
      | none => readPartsAfter whole seen rest
      | some part =>
        if part.key ∈ seen then throw (Fault.duplicateRulePart whole).malformed
        let parts ← readPartsAfter whole (part.key :: seen) rest
        return part :: parts

/-- What the first part of a kind says, or what holds without one. -/
def valueOr {α : Type} (other : α) (select : RulePart → Option α) (parts : List RulePart) : α :=
  (parts.findSome? select).getD other

/-- The rule that its parts describe, with a given frequency. -/
def withParts (frequency : Frequency) (parts : List RulePart) : Rule where
  effect := .includes
  frequency
  weekStart := parts.findSome? fun | .wkst day => some day | _ => none
  finish := valueOr .never
    (fun | .finish bound => some bound | .count n => some (.count n) | _ => none) parts
  interval := valueOr 1 (fun | .interval n => some n | _ => none) parts
  byDay := valueOr [] (fun | .byDay days => some days | _ => none) parts
  byMonth := valueOr [] (fun | .byMonth months => some months | _ => none) parts
  byMonthDay := valueOr [] (fun | .byMonthDay days => some days | _ => none) parts
  byWeekNo := valueOr [] (fun | .byWeekNo weeks => some weeks | _ => none) parts
  byYearDay := valueOr [] (fun | .byYearDay days => some days | _ => none) parts
  byHour := valueOr [] (fun | .byHour hours => some hours | _ => none) parts
  byMinute := valueOr [] (fun | .byMinute minutes => some minutes | _ => none) parts
  bySecond := valueOr [] (fun | .bySecond seconds => some seconds | _ => none) parts
  bySetPos := valueOr [] (fun | .bySetPos positions => some positions | _ => none) parts
  parameters := .empty

/-- The rule that its parts describe: it has a frequency and at most one end. -/
def ofParts (whole : String) (parts : List RulePart) : Except Fault Rule :=
  let keys := parts.map RulePart.key
  if RuleKey.untilBound ∈ keys ∧ RuleKey.count ∈ keys then .error .untilAndCount
  else
    match parts.findSome? fun | .freq frequency => some frequency | _ => none with
    | some frequency => .ok (withParts frequency parts)
    | none => .error (.missingFrequency whole)

/-- A rule without its name and parameters. -/
def read (text : String) : Except Malformed Rule :=
  inProduction "recur" do
    let parts ← readPartsAfter text [] (Text.fields ';' text.toList)
    bare (ofParts text parts)

end Rule

end Recurrence
