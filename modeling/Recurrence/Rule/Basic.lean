/-
# Recurrence rules

A rule repeats with a frequency, in every `interval`-th period of it. Lists of
months, days and times narrow the days and times within a period or add to
them, and a list of positions picks among all that a period has. A rule ends
after a number of instances, at a bound, or never. A rule includes its
instances into a recurrence set or excludes them.

Key definitions: `Frequency`, `Finish`, `Effect`, `Rule`, `Rule.every`.
-/
import Recurrence.OrdinalWeekday
import Recurrence.Parameter

namespace Recurrence

/-- How often a rule repeats, from the shortest period to the longest. -/
inductive Frequency
  | secondly | minutely | hourly | daily | weekly | monthly | yearly
  deriving DecidableEq

namespace Frequency

/-- The frequencies from the shortest period to the longest. -/
def all : List Frequency :=
  [secondly, minutely, hourly, daily, weekly, monthly, yearly]

/-- The place of a frequency among all, from the shortest period. -/
def rank : Frequency → Nat
  | secondly => 0
  | minutely => 1
  | hourly => 2
  | daily => 3
  | weekly => 4
  | monthly => 5
  | yearly => 6

/-- The name of a frequency in rules. -/
def name : Frequency → String
  | secondly => "SECONDLY"
  | minutely => "MINUTELY"
  | hourly => "HOURLY"
  | daily => "DAILY"
  | weekly => "WEEKLY"
  | monthly => "MONTHLY"
  | yearly => "YEARLY"

/-- The frequency of a name in any case. -/
def read (text : String) : Except Fault Frequency :=
  match all.find? (·.name == Text.upper text) with
  | some frequency => .ok frequency
  | none => .error (.frequency text)

end Frequency

/-- Where a rule ends. -/
inductive Finish
  | never
  /-- After a number of instances. -/
  | count (n : Nat)
  /-- At a bound on the clocks of the rule's zone. -/
  | untilLocal (bound : Moment)
  /-- At a bound in UTC. -/
  | untilUtc (bound : Moment)
  deriving DecidableEq

/-- What a line does with its instants. -/
inductive Effect
  | includes
  | excludes
  deriving DecidableEq

/-- A recurrence rule. An empty list leaves what it would select open. -/
structure Rule where
  effect : Effect
  frequency : Frequency
  weekStart : Option Weekday
  finish : Finish
  interval : Nat
  byDay : List OrdinalWeekday
  byMonth : List Nat
  byMonthDay : List Int
  byWeekNo : List Int
  byYearDay : List Int
  byHour : List Nat
  byMinute : List Nat
  bySecond : List Nat
  bySetPos : List Int
  /-- The extension parameters of the rule's line. -/
  parameters : Parameters
  deriving DecidableEq

namespace Rule

/-- The rule that repeats with a frequency, from the start on and without
end. -/
def every (frequency : Frequency) : Rule where
  effect := .includes
  frequency
  weekStart := none
  finish := .never
  interval := 1
  byDay := []
  byMonth := []
  byMonthDay := []
  byWeekNo := []
  byYearDay := []
  byHour := []
  byMinute := []
  bySecond := []
  bySetPos := []
  parameters := .empty

/-- The weekday that weeks begin on, Monday unless the rule says otherwise. -/
def firstWeekday (rule : Rule) : Weekday :=
  rule.weekStart.getD .monday

end Rule

end Recurrence
