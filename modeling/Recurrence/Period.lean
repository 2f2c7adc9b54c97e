/-
# Periods

A period runs from its start up to, but not including, its end; both are dates
or both are date-times, and the end is not before the start.

Key definitions: `Period`, `Period.between`, `Period.lasting`, `Period.intersects`,
`Period.contains`.
Key theorems: `Period.between_eq_ok_iff`.
-/
import Recurrence.Fault

namespace Recurrence

/-- A span from a start to an end. -/
structure Period where
  start : Moment
  finish : Moment
  deriving DecidableEq

namespace Period

/-- The period between two moments of one kind. -/
def between (start finish : Moment) : Except Refusal Period :=
  if start.hasTime ≠ finish.hasTime then .error (.mixedPeriod start finish)
  else if finish < start then .error (.reversedPeriod start finish)
  else .ok ⟨start, finish⟩

/-- The period of the given length in seconds. -/
def lasting (start : Moment) (seconds : Int) : Except Refusal Period :=
  match start.add? seconds with
  | none => .error (.durationTooFar start)
  | some finish => between start finish

/-- Whether two periods share a moment. -/
def intersects (a b : Period) : Bool :=
  a.start < b.finish && b.start < a.finish

/-- Whether the second period lies within the first. -/
def contains (a b : Period) : Bool :=
  a.start ≤ b.start && b.finish ≤ a.finish

/-- A period with its ends written by `render`. -/
def textWith (render : Moment → String) (p : Period) : String :=
  render p.start ++ "/" ++ render p.finish

/-- A period as its start and its end. -/
def text (p : Period) : String :=
  p.textWith Moment.text

/-- A period holds exactly two moments of one kind in order. -/
theorem between_eq_ok_iff {start finish : Moment} {p : Period} :
    between start finish = .ok p ↔
      start.hasTime = finish.hasTime ∧ start ≤ finish ∧ p = ⟨start, finish⟩ := by
  unfold between
  by_cases h1 : start.hasTime = finish.hasTime
  · by_cases h2 : finish < start
    · simp [h1, h2, LE.le]
    · simp [h1, h2, LE.le, eq_comm]
  · simp [h1]

end Period

end Recurrence
