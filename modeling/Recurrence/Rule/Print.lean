/-
# Writing rules

The parts of a rule are written in one fixed order, and those that say nothing
are left out.

Key definitions: `Rule.body`, `Rule.line`, `Rule.text`.
-/
import Recurrence.Rule.Basic

namespace Recurrence

/-- The name of the property that holds a rule. -/
def Effect.ruleName : Effect → String
  | .includes => "RRULE"
  | .excludes => "EXRULE"

namespace Rule

/-- A part, which is a key and a value. -/
def part (key : String) (value : List Char) : List Char :=
  key.toList ++ '=' :: value

/-- The part that says where a rule ends. -/
def finishParts : Finish → List (List Char)
  | .never => []
  | .count n => [part "COUNT" (Decimal.padded 0 n)]
  | .untilLocal bound => [part "UNTIL" bound.chars]
  | .untilUtc bound => [part "UNTIL" (bound.chars ++ ['Z'])]

/-- The part of a list, unless it is empty. -/
def listParts {α : Type} (key : String) (render : α → List Char) (values : List α) :
    List (List Char) :=
  if values.isEmpty then [] else [part key (Text.join ',' (values.map render))]

/-- A number with its sign. -/
def signed (n : Int) : List Char :=
  (Decimal.integer n).toList

/-- The parts of a rule in the order they are written in. -/
def parts (rule : Rule) : List (List Char) :=
  [part "FREQ" rule.frequency.name.toList] ++
    (rule.weekStart.toList.map fun day => part "WKST" day.code.toList) ++
    finishParts rule.finish ++
    (if rule.interval = 1 then [] else [part "INTERVAL" (Decimal.padded 0 rule.interval)]) ++
    listParts "BYYEARDAY" signed rule.byYearDay ++
    listParts "BYMONTH" (Decimal.padded 0) rule.byMonth ++
    listParts "BYMONTHDAY" signed rule.byMonthDay ++
    listParts "BYWEEKNO" signed rule.byWeekNo ++
    listParts "BYDAY" OrdinalWeekday.chars rule.byDay ++
    listParts "BYHOUR" (Decimal.padded 0) rule.byHour ++
    listParts "BYMINUTE" (Decimal.padded 0) rule.byMinute ++
    listParts "BYSECOND" (Decimal.padded 0) rule.bySecond ++
    listParts "BYSETPOS" signed rule.bySetPos

/-- A rule without its name and parameters. -/
def body (rule : Rule) : String :=
  String.ofList (Text.join ';' rule.parts)

/-- The content line of a rule. -/
def line (rule : Rule) : ContentLine :=
  ⟨rule.effect.ruleName, rule.parameters.raw, rule.body⟩

/-- A rule as it is written. -/
def text (rule : Rule) : String :=
  rule.line.text

end Rule

end Recurrence
