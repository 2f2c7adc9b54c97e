/-
# Separators and case

Lists are written with a separator between their items. `Text.fields` cuts a
text at each separator and `Text.join` puts texts together with the separator
between them. Upper case is that of ASCII.

Key definitions: `Text.fields`, `Text.join`, `Text.upper`.
Key theorems: `Text.fields_ne_nil`.
-/

namespace Recurrence.Text

/-- The texts between the separators; a text without a separator is one field. -/
def fields (sep : Char) : List Char → List (List Char)
  | [] => [[]]
  | c :: rest =>
    if c = sep then [] :: fields sep rest
    else
      match fields sep rest with
      | [] => [[c]]
      | first :: others => (c :: first) :: others

/-- The texts one after the other with the separator between them. -/
def join (sep : Char) : List (List Char) → List Char
  | [] => []
  | [last] => last
  | first :: second :: rest => first ++ sep :: join sep (second :: rest)

theorem fields_ne_nil (sep : Char) (text : List Char) : fields sep text ≠ [] := by
  cases text with
  | nil => simp [fields]
  | cons c rest =>
    by_cases h : c = sep
    · simp [fields, h]
    · simp only [fields, h, if_false]
      split <;> simp

/-- The text with the small letters of ASCII as capitals. -/
def upperChars (text : List Char) : List Char :=
  text.map Char.toUpper

/-- The text with the small letters of ASCII as capitals. -/
def upper (text : String) : String :=
  String.ofList (upperChars text.toList)

/-- The texts one after the other with the separator between them. -/
def joinWith (sep : Char) (texts : List String) : String :=
  String.ofList (join sep (texts.map String.toList))

/-- The texts between the separators. -/
def splitAt (sep : Char) (text : String) : List String :=
  (fields sep text.toList).map String.ofList

end Recurrence.Text
