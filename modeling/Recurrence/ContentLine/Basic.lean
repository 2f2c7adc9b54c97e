/-
# Content lines

A content line is a name, parameters and a value: `NAME;KEY=VALUE,VALUE:VALUE`.
A parameter value that is empty or holds a separator is written between double
quotes.

Key definitions: `ContentLine`, `RawParameter`, `ContentLine.chars`,
`ContentLine.text`.
-/
import Recurrence.Text.Split

namespace Recurrence

/-- The name of a parameter and its values, as written. -/
structure RawParameter where
  name : String
  values : List String
  deriving DecidableEq

/-- One line, split but not interpreted. -/
structure ContentLine where
  name : String
  parameters : List RawParameter
  value : String
  deriving DecidableEq

namespace RawParameter

/-- Whether a parameter value has to stand between quotes. -/
def needsQuotes (value : List Char) : Bool :=
  value.isEmpty || value.any fun c => c == ',' || c == ':' || c == ';'

/-- A parameter value, quoted where it has to be. -/
def valueChars (value : String) : List Char :=
  if needsQuotes value.toList then '"' :: value.toList ++ ['"'] else value.toList

/-- A parameter as it is written. -/
def chars (p : RawParameter) : List Char :=
  p.name.toList ++ '=' :: Text.join ',' (p.values.map valueChars)

end RawParameter

namespace ContentLine

/-- A line as it is written. -/
def chars (line : ContentLine) : List Char :=
  Text.join ';' (line.name.toList :: line.parameters.map RawParameter.chars) ++
    ':' :: line.value.toList

/-- A line as it is written. -/
def text (line : ContentLine) : String :=
  String.ofList line.chars

end ContentLine

end Recurrence
