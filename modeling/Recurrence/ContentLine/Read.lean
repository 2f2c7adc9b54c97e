/-
# Reading content lines

A name is made of letters and digits of ASCII and hyphens. A parameter value
stands between quotes and may then hold anything but a quote, or it holds none
of the separators. The value of the line reaches up to the first line break,
which has to be the end of the text.

Key definitions: `ContentLine.readChars`, `ContentLine.read`.
Key theorems: `ContentLine.readValue_length`, `ContentLine.readParameter_length`.
-/
import Recurrence.ContentLine.Basic
import Recurrence.ContentLine.Fold
import Recurrence.Fault

namespace Recurrence.ContentLine

/-! ### Characters -/

/-- The characters of names. -/
def isNameChar (c : Char) : Bool :=
  c.isAlphanum || c == '-'

/-- The characters that end a line. -/
def isBreak (c : Char) : Bool :=
  c == '\n' || c == '\r'

/-- The characters of a parameter value that is not quoted. -/
def isSafe (c : Char) : Bool :=
  !(c == ';' || c == ':' || c == ',' || c == '"' || isBreak c)

/-- The longest start of characters of a kind, and what follows it. -/
def span (p : Char → Bool) (text : List Char) : List Char × List Char :=
  (text.takeWhile p, text.dropWhile p)

theorem length_span_snd (p : Char → Bool) (text : List Char) :
    (span p text).2.length ≤ text.length :=
  (List.dropWhile_suffix p).length_le

/-! ### Parameters -/

/-- A parameter value without its quotes, and what follows it. A quote that is
never closed begins no value, so the value before it is empty. -/
def readValue (text : List Char) : List Char × List Char :=
  match text with
  | '"' :: rest =>
    match span (· != '"') rest with
    | (value, _ :: after) => (value, after)
    | (_, []) => ([], text)
  | _ => span isSafe text

theorem readValue_length (text : List Char) : (readValue text).2.length ≤ text.length := by
  unfold readValue
  split
  · rename_i rest
    have h := length_span_snd (· != '"') rest
    split
    · rename_i value c after heq
      rw [heq] at h
      simp only [List.length_cons] at h ⊢
      omega
    · simp
  · exact length_span_snd isSafe text

/-- The values of a parameter, separated by commas, and what follows them. -/
def readValues (text : List Char) : List String × List Char :=
  match _next : readValue text with
  | (value, ',' :: rest) =>
    let (values, after) := readValues rest
    (String.ofList value :: values, after)
  | (value, after) => ([String.ofList value], after)
termination_by text.length
decreasing_by
  have h := readValue_length text
  rw [_next] at h
  simp only [List.length_cons] at h
  omega

theorem readValues_length (text : List Char) : (readValues text).2.length ≤ text.length := by
  fun_induction readValues text with
  | case1 text value rest hnext values after hrest ih =>
    have h := readValue_length text
    rw [hnext] at h
    rw [hrest] at ih
    simp only [List.length_cons] at h ih ⊢
    omega
  | case2 text value after _ hnext =>
    have h := readValue_length text
    rw [hnext] at h
    exact h

/-- A parameter and what follows it. -/
def readParameter (text : List Char) : Option (RawParameter × List Char) :=
  match span isNameChar text with
  | (c :: name, '=' :: rest) =>
    let (values, after) := readValues rest
    some (⟨String.ofList (c :: name), values⟩, after)
  | _ => none

theorem readParameter_length {text : List Char} {p : RawParameter} {after : List Char}
    (h : readParameter text = some (p, after)) : after.length < text.length := by
  unfold readParameter at h
  have hs := length_span_snd isNameChar text
  split at h
  · rename_i c name rest heq
    rw [heq] at hs
    have hv := readValues_length rest
    simp only [Option.some.injEq, Prod.mk.injEq] at h
    rw [h.2] at hv
    simp only [List.length_cons] at hs
    omega
  · simp at h

/-- The parameters, each after a semicolon, and what follows the last
well-formed one. -/
def readParameters (text : List Char) : List RawParameter × List Char :=
  match text with
  | ';' :: rest =>
    match _next : readParameter rest with
    | some (p, after) =>
      let (ps, remaining) := readParameters after
      (p :: ps, remaining)
    | none => ([], text)
  | _ => ([], text)
termination_by text.length
decreasing_by
  have h := readParameter_length _next
  simp only [List.length_cons]
  omega

/-! ### Lines -/

/-- The column, counted from 1 in the last line read, at which `rest` begins in
the text that ends with it. -/
def columnOf (text rest : List Char) : Nat :=
  let before := text.take (text.length - rest.length)
  (before.reverse.takeWhile (· != '\n')).length + 1

/-- The content line that a text without folds consists of. -/
def readUnfolded (text : List Char) : Except Fault ContentLine :=
  let fault (column : Nat) : Except Fault ContentLine :=
    .error (.contentLine (String.ofList text) column)
  match span isNameChar text with
  | ([], _) => fault 1
  | (name, rest) =>
    match readParameters rest with
    | (parameters, ':' :: rest) =>
      match span (!isBreak ·) rest with
      | (value, []) => .ok ⟨String.ofList name, parameters, String.ofList value⟩
      | (_, left) => fault (columnOf text left)
    | (_, ';' :: rest) => fault (columnOf text rest)
    | _ => fault 1

/-- The content line that a text consists of. -/
def read (text : String) : Except Malformed ContentLine :=
  inProduction "contentline" (bare (readUnfolded (Folding.strip text.toList)))

end Recurrence.ContentLine
