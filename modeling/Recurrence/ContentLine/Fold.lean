/-
# Folded lines

A long line may be folded: a line break followed by one space or tab stands for
nothing. A line break is LF, or CR LF.

Key definitions: `Folding.strip`, `Folding.lines`, `Folding.unfold`.
-/
import Recurrence.Text.Blank

namespace Recurrence.Folding

/-- The characters that continue a folded line after its break. -/
def isContinuation (c : Char) : Bool :=
  c == ' ' || c == '\t'

/-- The text without its folds. -/
def strip : List Char → List Char
  | '\r' :: '\n' :: c :: rest =>
    if isContinuation c then strip rest else '\r' :: strip ('\n' :: c :: rest)
  | '\n' :: c :: rest =>
    if isContinuation c then strip rest else '\n' :: strip (c :: rest)
  | c :: rest => c :: strip rest
  | [] => []

/-- A character put before the first of several lines. -/
def consFirst (c : Char) : List (List Char) → List (List Char)
  | [] => [[c]]
  | first :: others => (c :: first) :: others

/-- The texts between line breaks. -/
def lines : List Char → List (List Char)
  | '\r' :: '\n' :: rest => [] :: lines rest
  | '\n' :: rest => [] :: lines rest
  | c :: rest => consFirst c (lines rest)
  | [] => [[]]

/-- The text without its folds. -/
def stripText (text : String) : String :=
  String.ofList (strip text.toList)

/-- The lines of a folded text, trimmed, without the blank ones. -/
def unfold (text : String) : List String :=
  ((lines (strip text.toList)).map Text.trimChars).filterMap fun line =>
    if line.isEmpty then none else some (String.ofList line)

end Recurrence.Folding
