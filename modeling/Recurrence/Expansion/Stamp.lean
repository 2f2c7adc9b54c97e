/-
# Candidate stamps

A rule is expanded field by field, from the year down to the second. The six
fields of a candidate make a stamp; the fields below the year are those that a
list of a rule can select.

Key definitions: `Field`, `Stamp`, `Stamp.truncate`, `Stamp.set`, `Stamp.periodStart`.
-/
import Recurrence.Moment.Print
import Recurrence.Rule.Basic

namespace Recurrence

/-- The fields below the year, the coarsest first. -/
inductive Field
  | month | day | hour | minute | second
  deriving DecidableEq

/-- A year, month, day, hour, minute and second. -/
structure Stamp where
  year : Int
  month : Nat
  day : Nat
  hour : Nat
  minute : Nat
  second : Nat
  deriving DecidableEq

namespace Stamp

/-- The stamp with all fields zero. -/
def zero : Stamp := ⟨0, 0, 0, 0, 0, 0⟩

/-- The fields of a moment; a date stands for its midnight. -/
def ofMoment (m : Moment) : Stamp :=
  let t := m.time.getD .midnight
  ⟨m.date.year, m.date.month, m.date.day, t.hour, t.minute, t.second⟩

/-- The date of a stamp. -/
def date (s : Stamp) : Date :=
  ⟨s.year, s.month, s.day⟩

/-- The midnight that begins a date. -/
def ofDate (d : Date) : Stamp :=
  ⟨d.year, d.month, d.day, 0, 0, 0⟩

/-- The moment of a stamp, as a date or as a date-time. -/
def toMoment (dateOnly : Bool) (s : Stamp) : Moment :=
  if dateOnly then ⟨s.date, none⟩ else ⟨s.date, some (.of s.hour s.minute s.second)⟩

/-- A stamp written as a date-time. -/
def text (s : Stamp) : String :=
  (s.toMoment false).text

/-- The value of a field. -/
def get (s : Stamp) : Field → Nat
  | .month => s.month
  | .day => s.day
  | .hour => s.hour
  | .minute => s.minute
  | .second => s.second

/-- The stamp with another value in a field. -/
def set (s : Stamp) (field : Field) (value : Nat) : Stamp :=
  match field with
  | .month => { s with month := value }
  | .day => { s with day := value }
  | .hour => { s with hour := value }
  | .minute => { s with minute := value }
  | .second => { s with second := value }

/-- The first instant of a stamp's year. -/
def startOfYear (s : Stamp) : Stamp :=
  ⟨s.year, 1, 1, 0, 0, 0⟩

/-- The first instant of the period that a stamp and its fields down to the
given one name. -/
def truncate (s : Stamp) : Field → Stamp
  | .month => ⟨s.year, s.month, 1, 0, 0, 0⟩
  | .day => ⟨s.year, s.month, s.day, 0, 0, 0⟩
  | .hour => ⟨s.year, s.month, s.day, s.hour, 0, 0⟩
  | .minute => ⟨s.year, s.month, s.day, s.hour, s.minute, 0⟩
  | .second => s

/-- The fields above the given one, which name the period it ranges over; the
others are zero. -/
def above (s : Stamp) : Field → Stamp
  | .month => ⟨s.year, 0, 0, 0, 0, 0⟩
  | .day => ⟨s.year, s.month, 0, 0, 0, 0⟩
  | .hour => ⟨s.year, s.month, s.day, 0, 0, 0⟩
  | .minute => ⟨s.year, s.month, s.day, s.hour, 0, 0⟩
  | .second => ⟨s.year, s.month, s.day, s.hour, s.minute, 0⟩

/-- The first instant of the period of a frequency that holds the stamp. -/
def periodStart (s : Stamp) (frequency : Frequency) (weekStart : Weekday) : Stamp :=
  match frequency with
  | .yearly => s.startOfYear
  | .monthly => s.truncate .month
  | .weekly => ofDate (s.date.startOfWeek weekStart)
  | .daily => s.truncate .day
  | .hourly => s.truncate .hour
  | .minutely => s.truncate .minute
  | .secondly => s

/-- Stamps are ordered by their fields, the coarsest first. -/
protected def lt (a b : Stamp) : Prop :=
  a.year < b.year ∨ a.year = b.year ∧
    (a.month < b.month ∨ a.month = b.month ∧
      (a.day < b.day ∨ a.day = b.day ∧
        (a.hour < b.hour ∨ a.hour = b.hour ∧
          (a.minute < b.minute ∨ a.minute = b.minute ∧ a.second < b.second))))

instance : LT Stamp := ⟨Stamp.lt⟩

instance (a b : Stamp) : Decidable (a < b) :=
  inferInstanceAs (Decidable (_ ∨ _))

end Stamp

end Recurrence
