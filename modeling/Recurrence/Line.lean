/-
# Recurrence lines

A line gives a rule or lists dates, and either includes its instants into a
recurrence set or excludes them. Rules of vCalendar 1.0 are modernized first. The
zones that lines name are those of a time zone database.

Key definitions: `Line`, `Line.readIn`, `Line.readAllIn`, `Line.text`.
-/
import Recurrence.DateList
import Recurrence.Legacy
import Recurrence.Rule.Print
import Recurrence.Rule.Read

namespace Recurrence

/-- One line of a recurrence set. -/
inductive Line
  | rule (rule : Rule)
  | dates (list : DateList)
  deriving DecidableEq

/-- The rule of a content line. -/
def Rule.ofLine (effect : Effect) (line : ContentLine) : Except Malformed Rule := do
  let parameters ← Parameters.read .rule line.parameters
  let rule ← Rule.read line.value
  return { rule with effect, parameters }

namespace Line

/-- What the line does with its instants. -/
def effect : Line → Effect
  | rule r => r.effect
  | dates list => list.effect

/-- A line as it is written. -/
def text : Line → String
  | rule r => r.text
  | dates list => list.text

/-- The meaning of a content line, by its name in capitals. -/
def ofContentLine (database : Database) (name : String) (line : ContentLine) (zone : Zone) :
    Except Malformed Line :=
  if name = "RRULE" then (Rule.ofLine .includes line).map rule
  else if name = "EXRULE" then (Rule.ofLine .excludes line).map rule
  else if name = "RDATE" then (DateList.read database .includes line zone).map dates
  else if name = "EXDATE" then (DateList.read database .excludes line zone).map dates
  else .error (Fault.property line.name).malformed

/-- A line of a property that holds rules is read as a rule. -/
theorem ofContentLine_ruleName (database : Database) (effect : Effect) (line : ContentLine)
    (zone : Zone) :
    ofContentLine database effect.ruleName line zone = (Rule.ofLine effect line).map rule := by
  cases effect <;> rfl

/-- A line of a property that lists dates is read as a list. -/
theorem ofContentLine_datesName (database : Database) (effect : Effect) (line : ContentLine)
    (zone : Zone) :
    ofContentLine database effect.datesName line zone =
      (DateList.read database effect line zone).map dates := by
  cases effect <;> rfl

/-- The line that a text consists of, read in a zone, with the zones of a database. -/
def readIn (database : Database) (text : String) (zone : Zone) : Except Malformed Line := do
  let line ← ContentLine.read (Legacy.modernize text)
  let name := Text.upper line.name
  inProduction name (ofContentLine database name line zone)

/-- The lines of a text, which may be folded, read in a zone, with the zones of a
database. -/
def readAllIn (database : Database) (text : String) (zone : Zone) :
    Except Malformed (List Line) :=
  (Folding.unfold text).mapM fun line => readIn database line zone

/-- The line that a text consists of, read with the known zones. -/
def read (text : String) (zone : Zone) : Except Malformed Line :=
  readIn .known text zone

/-- The lines of a text, read with the known zones. -/
def readAll (text : String) (zone : Zone) : Except Malformed (List Line) :=
  readAllIn .known text zone

end Line

end Recurrence
