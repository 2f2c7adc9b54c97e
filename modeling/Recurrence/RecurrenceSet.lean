/-
# Recurrence sets

The lines of a set are merged: what the including lines produce, without what
the excluding lines produce. A set read from text holds its start as well,
unless that is excluded.

Key definitions: `LineSource`, `RecurrenceSet`, `RecurrenceSet.ofLines`,
`RecurrenceSet.readIn`.
-/
import Recurrence.Line
import Recurrence.Source.Dates
import Recurrence.Source.Rule
import Recurrence.Source.Union

namespace Recurrence

/-- What a line produces its instants from. -/
abbrev LineSource := RuleSource ⊕ DateSource

namespace LineSource

/-- The instants of a line; a rule is expanded from the start. -/
def ofLine (start : Moment) (zone : Zone) (limits : Limits) : Line → LineSource
  | .rule rule => .inl (.of rule start zone limits)
  | .dates list => .inr (.ofList list.dates)

end LineSource

/-- A union of lines. -/
abbrev RecurrenceSet := Union LineSource

namespace RecurrenceSet

/-- The cursors of the lines that have an effect. -/
def cursors (effect : Effect) (lines : List Line) (start : Moment) (zone : Zone)
    (limits : Limits) : List (Cursor LineSource) :=
  (lines.filter (·.effect = effect)).map fun line => .idle (.ofLine start zone limits line)

/-- The set of some lines. -/
def ofLines (lines : List Line) (start : Moment) (zone : Zone) (limits : Limits) :
    RecurrenceSet :=
  .of (cursors .includes lines start zone limits) (cursors .excludes lines start zone limits)

/-- The set of some lines and their start. -/
def withStart (lines : List Line) (start : Moment) (zone : Zone) (limits : Limits) :
    RecurrenceSet :=
  let first : LineSource := .inr (.ofList [zone.localToUtc start])
  .of (cursors .includes lines start zone limits ++ [.idle first])
    (cursors .excludes lines start zone limits)

/-- The set of the lines of a text and their start, with the zones of a database. -/
def readIn (database : Database) (text : String) (start : Moment) (zone : Zone)
    (limits : Limits) : Except Malformed RecurrenceSet :=
  (Line.readAllIn database text zone).map fun lines => withStart lines start zone limits

/-- The set of the lines of a text and their start, read with the known zones. -/
def read (text : String) (start : Moment) (zone : Zone) (limits : Limits) :
    Except Malformed RecurrenceSet :=
  readIn .known text start zone limits

end RecurrenceSet

end Recurrence
