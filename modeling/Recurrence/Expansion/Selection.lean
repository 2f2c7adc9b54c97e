/-
# The values of a field in a period

A field takes its values either from a list of the rule or in steps of an
interval. Steps are counted from an anchor across all periods, so that the
anchor's own value is among them, whichever period they are asked for. A
generator hands out the values of its field one by one and starts over when the
period changes; the years, which no period bounds, are stepped by themselves.

Key definitions: `Selection`, `Selection.values`, `Generator`, `Generator.generate`,
`YearSteps`.
-/
import Recurrence.Expansion.ByList

namespace Recurrence

open Calendar

/-! ### Steps from an anchor -/

/-- Every `interval`-th value of a field, counted from the anchor's; the
interval 0 counts as 1. -/
structure Steps where
  field : Field
  interval : Nat
  anchor : Stamp

namespace Steps

/-- The distance from one value to the next. -/
def stride (steps : Steps) : Nat :=
  max steps.interval 1

/-- The distance from the anchor to the first value that the field can take
in the period that the fields of a stamp above it name, in units of the
field. -/
def distance (steps : Steps) (s : Stamp) : Int :=
  let a := steps.anchor
  let hours := s.date.daysSince a.date * 24 + s.hour - a.hour
  match steps.field with
  | .month => (s.year - a.year) * 12 + 1 - a.month
  | .day => (⟨s.year, s.month, 1⟩ : Date).daysSince a.date
  | .hour => s.date.daysSince a.date * 24 - a.hour
  | .minute => hours * 60 - a.minute
  | .second => (hours * 60 + s.minute - a.minute) * 60 - a.second

/-- The first value that the field can take in any period. -/
def lowest (field : Field) : Nat :=
  match field with
  | .month | .day => 1
  | .hour | .minute | .second => 0

/-- The last value that the field can take in a period. -/
def highest (field : Field) (s : Stamp) : Nat :=
  match field with
  | .month => 12
  | .day => monthLength s.year s.month
  | .hour => 23
  | .minute | .second => 59

/-- Every `stride`-th number from the first to the last. -/
def progression (first stride last : Nat) : List Nat :=
  if first ≤ last then (List.range ((last - first) / stride + 1)).map (first + stride * ·)
  else []

/-- The values of a period in ascending order. -/
def values (steps : Steps) (s : Stamp) : List Nat :=
  let first := lowest steps.field + (-steps.distance s % steps.stride).toNat
  progression first steps.stride (highest steps.field s)

end Steps

/-! ### Selections -/

/-- Where a field below the year takes its values from. -/
inductive Selection
  | steps (steps : Steps)
  | list (list : ByList)

namespace Selection

/-- The field that takes the values. -/
def field : Selection → Field
  | steps s => s.field
  | list l => l.field

/-- The values in the period that the fields of a stamp above the selection's
own name, in ascending order. -/
def values : Selection → Stamp → List Nat
  | steps st, s => st.values s
  | list l, s => l.values s

end Selection

/-! ### Generators -/

/-- A selection, the period it was last asked for, and the values it has still
to hand out there. -/
structure Generator where
  selection : Selection
  period : Option Stamp
  rest : List Nat

namespace Generator

/-- A generator that was not asked yet. -/
def of (selection : Selection) : Generator :=
  ⟨selection, none, []⟩

/-- The generator at the period of a stamp. -/
def enter (g : Generator) (s : Stamp) : Generator :=
  let period := s.above g.selection.field
  if g.period = some period then g
  else { g with period := some period, rest := g.selection.values s }

/-- The stamp with the next value of the field, if its period has one left. -/
def generate (g : Generator) (s : Stamp) : Option Stamp × Generator :=
  let g := g.enter s
  match g.rest with
  | [] => (none, g)
  | value :: rest => (some (s.set g.selection.field value), { g with rest })

end Generator

/-! ### Years -/

/-- The next year, the distance to the one after it, and how many are left. -/
structure YearSteps where
  next : Int
  interval : Nat
  left : Nat

namespace YearSteps

/-- Every `interval`-th year from the first up to the last. -/
def of (first : Int) (interval : Nat) (last : Int) : YearSteps :=
  let interval := max interval 1
  ⟨first, interval, if first ≤ last then ((last - first) / interval).toNat + 1 else 0⟩

/-- The years that are left. -/
def toList (years : YearSteps) : List Int :=
  (List.range years.left).map fun k : Nat => years.next + years.interval * (k : Int)

/-- The stamp with the next year, if one is left. -/
def generate (years : YearSteps) (s : Stamp) : Option Stamp × YearSteps :=
  match years with
  | ⟨_, _, 0⟩ => (none, years)
  | ⟨next, interval, left + 1⟩ => (some { s with year := next }, ⟨next + interval, interval, left⟩)

end YearSteps

end Recurrence
