/-
# Tests that end or thin out an expansion

A filter accepts a candidate as soon as the filter's field is set. A bound lets
values pass up to a moment: a date admits every time of its day, and moments of
different kinds are compared by their dates.

Key definitions: `Filter`, `Filter.accepts`, `Moment.withinBound`, `takeOne`.
-/
import Recurrence.Expansion.ByList

namespace Recurrence

/-- A test of candidates. -/
inductive Filter
  /-- Accepts the weeks a whole multiple of `interval` weeks after the week
  that begins on day `reference`. -/
  | weeks (interval : Nat) (weekStart : Weekday) (reference : Int)
  | list (list : ByList)

namespace Filter

/-- Accepts every `interval`-th week from the week of a date on; the interval 0
counts as 1. -/
def everyWeek (interval : Nat) (weekStart : Weekday) (d : Date) : Filter :=
  weeks (max interval 1) weekStart (d.startOfWeek weekStart).dayNumber

/-- The finest field the test depends on. -/
def field : Filter → Field
  | weeks _ _ _ => .day
  | list l => l.field

/-- Whether a stamp passes the test. -/
def accepts (filter : Filter) (s : Stamp) : Bool :=
  match filter with
  | weeks interval weekStart reference =>
    let weeks := ((s.date.startOfWeek weekStart).dayNumber - reference).tdiv 7
    0 ≤ weeks && weeks % interval == 0
  | list l => l.accepts s

end Filter

/-- Whether a moment lies within a bound on the same clocks. -/
def Moment.withinBound (m bound : Moment) : Bool :=
  if m.hasTime = bound.hasTime then m ≤ bound else m.datePart ≤ bound.datePart

/-- Whether one more instance may follow when `n` are allowed, and how many may
follow after it. -/
def takeOne : Nat → Bool × Nat
  | 0 => (false, 0)
  | n + 1 => (true, n)

end Recurrence
