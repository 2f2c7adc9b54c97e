/-
# Blank space

Text is trimmed and cut into words at the characters of the Unicode property
`White_Space`, which holds more than the blanks of ASCII.

Key definitions: `Text.isBlank`, `Text.trim`, `Text.words`.
-/

namespace Recurrence.Text

/-- The characters of the Unicode property `White_Space`. -/
def isBlank (c : Char) : Bool :=
  let n := c.toNat
  (9 ≤ n && n ≤ 13) || n == 0x20 || n == 0x85 || n == 0xA0 || n == 0x1680 ||
    (0x2000 ≤ n && n ≤ 0x200A) || n == 0x2028 || n == 0x2029 || n == 0x202F ||
    n == 0x205F || n == 0x3000

/-- The text without the blanks it starts with. -/
def trimStart (text : List Char) : List Char :=
  text.dropWhile isBlank

/-- The text without the blanks at either end. -/
def trimChars (text : List Char) : List Char :=
  (trimStart (trimStart text).reverse).reverse

/-- The text without the blanks at either end. -/
def trim (text : String) : String :=
  String.ofList (trimChars text.toList)

/-- The longest start of the text without blanks, and what follows it. -/
def firstWord (text : List Char) : List Char × List Char :=
  (text.takeWhile (!isBlank ·), text.dropWhile (!isBlank ·))

theorem trimStart_length_le (text : List Char) : (trimStart text).length ≤ text.length :=
  (List.dropWhile_suffix isBlank).length_le

theorem firstWord_append (text : List Char) : (firstWord text).1 ++ (firstWord text).2 = text :=
  List.takeWhile_append_dropWhile

/-- The runs of characters that are not blank. -/
def words (text : List Char) : List (List Char) :=
  match _cut : trimStart text with
  | [] => []
  | c :: rest => (c :: (firstWord rest).1) :: words (firstWord rest).2
termination_by text.length
decreasing_by
  have h1 := trimStart_length_le text
  have h2 := congrArg List.length (firstWord_append rest)
  rw [_cut] at h1
  simp only [List.length_append, List.length_cons] at h1 h2
  omega

end Recurrence.Text
