/-
# From a rule to its cascade

Each field of a rule takes its values from one place. The days come from one of
the rule's lists, or repeat the start's day, or step by the interval; the
months and the times likewise. A list that gives no values narrows the
candidates as a filter. Fields that the rule leaves open repeat the start's
value, if they are finer than the period of its frequency; the field of the
frequency itself steps by the interval, and coarser fields take every value.

Key definitions: `DaySource`, `Rule.daySource`, `Rule.levels`, `Rule.candidates`.
-/
import Recurrence.Expansion.Positions

namespace Recurrence

namespace Frequency

/-- The interval of a rule for the field of its own frequency, 1 for any other
field. -/
def strideOf (frequency own : Frequency) (interval : Nat) : Nat :=
  if own = frequency then interval else 1

end Frequency

/-- Where the days of a rule come from. -/
inductive DaySource
  | yearDays | monthDays | weeks | weekdays
  /-- The day of the month of the start. -/
  | startDay
  /-- Every so many days from the start on. -/
  | everyDays (interval : Nat)
  deriving DecidableEq

namespace Rule

/-! ### Days -/

/-- Whether numbered weekdays count within the year rather than the month. -/
def countsInYear (rule : Rule) : Bool :=
  rule.frequency = .yearly && rule.byMonth.isEmpty

/-- Where the days of a rule come from. The days between the weeks of a weekly rule are
counted without a bound: once they are more than the calendar has, the start is the only
day that is reached, and it makes no difference how many they are. -/
def daySource (rule : Rule) : DaySource :=
  let yearly := rule.frequency = .yearly
  match rule.frequency with
  | .yearly | .monthly =>
    if yearly ∧ rule.byYearDay ≠ [] then .yearDays
    else if rule.byMonthDay ≠ [] then .monthDays
    else if yearly ∧ rule.byWeekNo ≠ [] then .weeks
    else if rule.byDay ≠ [] then .weekdays
    else .startDay
  | .weekly => if rule.byDay ≠ [] then .weekdays else .everyDays (rule.interval * 7)
  | .daily => .everyDays rule.interval
  | .hourly | .minutely | .secondly => .everyDays 1

/-- The lists of a rule that select days, each with the source of days that it
is. -/
def dayLists (rule : Rule) : List (DaySource × ByList) :=
  (if rule.byMonthDay = [] then [] else [(.monthDays, .monthDays rule.byMonthDay)]) ++
    (if rule.byYearDay = [] then [] else [(.yearDays, .yearDays rule.byYearDay)]) ++
    (if rule.byWeekNo = [] then [] else [(.weeks, .weeks rule.byWeekNo rule.firstWeekday)]) ++
    (if rule.byDay = [] then [] else [(.weekdays, .weekdays rule.byDay rule.countsInYear)])

/-- The days of a rule. -/
def daySelection (rule : Rule) (start : Stamp) : Selection :=
  match rule.daySource with
  | .yearDays => .list (.yearDays rule.byYearDay)
  | .monthDays => .list (.monthDays rule.byMonthDay)
  | .weeks => .list (.weeks rule.byWeekNo rule.firstWeekday)
  | .weekdays => .list (.weekdays rule.byDay rule.countsInYear)
  | .startDay => .list (.monthDays [signedDay start.day])
  | .everyDays interval => .steps ⟨.day, interval, start⟩

/-- The tests of the days of a rule: the lists that do not give the days, and
the weeks of a weekly rule that skips some. -/
def dayFilters (rule : Rule) (start : Stamp) : List Filter :=
  (if rule.frequency = .weekly ∧ rule.byDay ≠ [] ∧ rule.interval > 1 then
    [.everyWeek rule.interval rule.firstWeekday start.date] else []) ++
    (rule.dayLists.filter (·.1 ≠ rule.daySource)).map (.list ·.2)

/-! ### Months -/

/-- The months of a rule, which repeat the start's month where nothing else
tells the days of a year. -/
def monthLevel (rule : Rule) (start threshold : Stamp) : Level :=
  if rule.daySource = .startDay ∧ rule.countsInYear then
    ⟨.list (.months [start.month]), []⟩
  else if rule.byMonth ≠ [] ∧ ¬ (rule.frequency = .monthly ∧ rule.interval > 1) then
    ⟨.list (.months rule.byMonth), []⟩
  else
    ⟨.steps ⟨.month, Frequency.monthly.strideOf rule.frequency rule.interval, threshold⟩,
      if rule.byMonth = [] then [] else [.list (.months rule.byMonth)]⟩

/-! ### Times -/

/-- A field of the time of day: its frequency, the list that selects its
values, and how such a list is read. -/
structure TimeField where
  field : Field
  frequency : Frequency
  values : List Nat
  list : List Nat → ByList

/-- The fields of the time of day, each with the rule's list for it. -/
def timeFields (rule : Rule) : List TimeField :=
  [⟨.hour, .hourly, rule.byHour, .hours⟩,
   ⟨.minute, .minutely, rule.byMinute, .minutes⟩,
   ⟨.second, .secondly, rule.bySecond, .seconds⟩]

/-- The values of a field of the time of day. -/
def timeLevel (rule : Rule) (start : Stamp) (f : TimeField) : Level :=
  let steps (interval : Nat) : Selection := .steps ⟨f.field, interval, start⟩
  let listed (values : List Nat) : Selection := .list (f.list values)
  if rule.frequency = f.frequency then
    if f.values = [] then ⟨steps rule.interval, []⟩
    else if rule.interval = 1 then ⟨listed f.values, []⟩
    else ⟨steps rule.interval, [.list (f.list f.values)]⟩
  else if f.values ≠ [] then ⟨listed f.values, []⟩
  else if rule.frequency.rank < f.frequency.rank then ⟨steps 1, []⟩
  else ⟨listed [start.get f.field], []⟩

/-- A field of the time of day of a rule for dates, which is midnight. -/
def midnightLevel (f : TimeField) : Level :=
  ⟨.list (f.list [0]), []⟩

/-! ### The cascade -/

/-- The fields below the year of a rule that starts at `start`. -/
def levels (rule : Rule) (start threshold : Stamp) (dateOnly : Bool) : List Level :=
  [rule.monthLevel start threshold,
   ⟨rule.daySelection start, rule.dayFilters start⟩] ++
    rule.timeFields.map fun f => if dateOnly then midnightLevel f else rule.timeLevel start f

/-- Where the candidates of a rule begin: at the start, or at the beginning of
its period if they are selected by position. -/
def threshold (rule : Rule) (start : Stamp) : Stamp :=
  if rule.bySetPos = [] then start else start.periodStart rule.frequency rule.firstWeekday

/-- The candidates of a rule that starts at a moment, in ascending order. -/
def candidates (rule : Rule) (start : Moment) (limits : Limits) : Candidates :=
  let stamp := Stamp.ofMoment start
  let threshold := rule.threshold stamp
  { cascade :=
      { years := .of threshold.year
          (Frequency.yearly.strideOf rule.frequency rule.interval) limits.maxYear
        levels := rule.levels stamp threshold (!start.hasTime)
        current := none
        threshold
        barren := 0
        patience := limits.maxYearsBetweenInstances
        finished := false }
    selection :=
      if rule.bySetPos = [] then none
      else some
        { positions := rule.bySetPos
          frequency := rule.frequency
          weekStart := rule.firstWeekday
          waiting := none
          selected := [] } }

end Rule

end Recurrence
