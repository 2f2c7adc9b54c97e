/-
# The command line

`expand` reads recurrence lines and prints the instants of their set, separated
by commas. Its options are the start, the zone that the start and the lines are
read in, how many instants to print, an instant to begin at, and after how many
years without an instant to give up. The zones that the options and the lines name
are those of a time zone database.

Key definitions: `Expand.Options`, `Expand.Options.read?`, `Expand.instantsIn`,
`Expand.runIn`.
-/
import Recurrence.RecurrenceSet

namespace Recurrence.Expand

/-- What a run of the command leaves behind. -/
structure Outcome where
  exitCode : Nat
  output : String
  errors : String
  deriving DecidableEq

/-- The options of the command. -/
structure Options where
  start : String
  zone : String
  limit : Nat
  advanceTo : Option String
  maxYears : Nat
  deriving DecidableEq

namespace Options

/-- The names of the options. -/
def names : List String :=
  ["dtstart", "tz", "limit", "advance-to", "max-years"]

/-- Whether a text may be the value of an option that it follows: it is no
option itself. -/
def isValue (text : List Char) : Bool :=
  match text with
  | '-' :: _ :: _ => false
  | _ => true

/-- The name of an option, and its value if it is written in the same word. -/
def nameOf? (word : List Char) : Option (String × Option String) :=
  match word with
  | '-' :: '-' :: option =>
    let name := String.ofList (option.takeWhile (· != '='))
    let value := match option.dropWhile (· != '=') with
      | _ :: value => some (String.ofList value)
      | [] => none
    if name ∈ names then some (name, value) else none
  | _ => none

/-- One more option in front of others, unless it is among them. -/
def add (name value : String) (others : List (String × String)) :
    Option (List (String × String)) :=
  if (others.lookup name).isSome then none else some ((name, value) :: others)

/-- The options with their values, each given at most once. -/
def pairs? : List String → Option (List (String × String))
  | [] => some []
  | [word] =>
    match nameOf? word.toList with
    | some (name, some value) => some [(name, value)]
    | some (_, none) => none
    | none => if word = "--" then some [] else none
  | word :: second :: rest =>
    match nameOf? word.toList with
    | some (name, some value) => (pairs? (second :: rest)).bind (add name value)
    | some (name, none) =>
      if isValue second.toList then (pairs? rest).bind (add name second) else none
    | none => none

/-- The options of a command line. -/
def read? (args : List String) : Option Options := do
  let pairs ← pairs? args
  let start ← pairs.lookup "dtstart"
  let limit ← Decimal.unsigned? (UInt64.size - 1) ((pairs.lookup "limit").getD "10").toList
  let maxYears ← Decimal.unsigned? (UInt32.size - 1) ((pairs.lookup "max-years").getD "1000").toList
  return { start, zone := (pairs.lookup "tz").getD "UTC", limit,
           advanceTo := pairs.lookup "advance-to", maxYears }

end Options

/-- Why a run fails. -/
inductive Failure
  | text (error : Malformed)
  | date (text : String) (error : Malformed)

namespace Failure

/-- A text whose lines after the first are indented. -/
def indented (text : String) : String :=
  String.ofList (text.toList.flatMap fun c => if c = '\n' then "\n    ".toList else [c])

/-- What is said about a failure. -/
def message : Failure → String
  | .text error => "Error: " ++ error.message ++ "\n"
  | .date fragment error =>
    "Error: bad date '" ++ fragment ++ "'\n\nCaused by:\n    " ++ indented error.message ++ "\n"

end Failure

/-- A moment on the clocks of the zone; one marked as UTC is converted. -/
def readLocal (zone : Zone) (text : String) : Except Failure Moment :=
  match Moment.readMarked text with
  | .ok (m, utc) => .ok (if utc then zone.utcToLocal m else m)
  | .error fault => .error (.date text fault.malformed)

/-- An instant as it is printed. -/
def instantText (m : Moment) : String :=
  if m.hasTime then m.text ++ "Z" else m.text

/-- The instants that a run prints when the start and the lines are read in a zone, with
the zones of a database. -/
def instantsIn (database : Database) (zone : Zone) (options : Options) (input : String) :
    Except Failure (List Moment) := do
  let start ← readLocal zone options.start
  let limits := { Limits.standard with maxYearsBetweenInstances := options.maxYears }
  let set ← (RecurrenceSet.readIn database input start zone limits).mapError .text
  let cursor : Cursor RecurrenceSet := .idle set
  let cursor ← match options.advanceTo with
    | some text => do
      let date ← readLocal zone text
      pure (cursor.advanceTo (zone.localToUtc date))
    | none => pure cursor
  return (cursor.take options.limit).1

/-- The instants that a run prints, in the zone that its options name. -/
def instants (database : Database) (options : Options) (input : String) :
    Except Failure (List Moment) := do
  let named ← (database.find options.zone).mapError .text
  instantsIn database named.zone options input

/-- What a run leaves behind that prints some instants or fails. -/
def outcome : Except Failure (List Moment) → Outcome
  | .ok moments => ⟨0, Text.joinWith ',' (moments.map instantText) ++ "\n", ""⟩
  | .error failure => ⟨1, "", failure.message⟩

/-- How the command is used. -/
def usage : String :=
  "usage: expand --dtstart <DTSTART> [--tz <TZ>] [--limit <LIMIT>]" ++
    " [--advance-to <ADVANCE_TO>] [--max-years <MAX_YEARS>]\n"

/-- A run of the command with its arguments and its input, with the zones of a
database. -/
def runIn (database : Database) (args : List String) (input : String) : Outcome :=
  match Options.read? args with
  | none => ⟨2, "", usage⟩
  | some options => outcome (instants database options input)

/-- A run of the command with the known zones. -/
def run (args : List String) (input : String) : Outcome :=
  runIn .known args input

end Recurrence.Expand
