/-
# Rules of vCalendar 1.0

Before rules had their present form they were written as words: a frequency
code with an interval, the numbers and weekdays that narrow it, and a duration,
as in `W2 TU TH #3` or `MP1 1+ MO 19990701`. Such a text, after the name and
the parameters of a property or alone, is brought into the present form; any
other text is left as it is.

Digits may be those of any script, and the long s counts as a form of the
letter S; both are carried over as they are.

Key definitions: `Legacy.LegacyRule`, `Legacy.read?`, `Legacy.modernizeChars`,
`Legacy.modernize`.
-/
import Recurrence.Rule.Basic
import Recurrence.Text.DecimalDigit

namespace Recurrence.Legacy

/-! ### Frequency codes -/

/-- The codes of frequencies. -/
inductive Code
  | monthDays | monthPositions | yearDays | yearMonths | daily | weekly
  deriving DecidableEq

namespace Code

/-- The code that a text begins with, in any case, and what follows it. -/
def read? (text : List Char) : Option (Code × List Char) :=
  match text with
  | [] => none
  | first :: rest =>
    match first.toUpper, rest.head?.map Char.toUpper with
    | 'M', some 'D' => some (monthDays, rest.drop 1)
    | 'M', some 'P' => some (monthPositions, rest.drop 1)
    | 'Y', some 'D' => some (yearDays, rest.drop 1)
    | 'Y', some 'M' => some (yearMonths, rest.drop 1)
    | 'D', _ => some (daily, rest)
    | 'W', _ => some (weekly, rest)
    | _, _ => none

/-- The frequency of a code. -/
def frequency : Code → Frequency
  | daily => .daily
  | weekly => .weekly
  | monthDays | monthPositions => .monthly
  | yearDays | yearMonths => .yearly

end Code

/-! ### Words -/

/-- Whether a text is a run of `least` to `most` decimal digits. -/
def isDigits (least most : Nat) (text : List Char) : Bool :=
  least ≤ text.length && text.length ≤ most && text.all Text.isDecimalDigit

/-- The text in capitals, the long s included. -/
def fold (text : List Char) : List Char :=
  text.map fun c => if c.toNat = 0x17F then 'S' else c.toUpper

/-- The two-letter words: the last day of the month, and the weekdays. -/
def letterWords : List (List Char) :=
  ['L', 'D'] :: Weekday.all.map (·.code.toList)

/-- The word without the sign it may end with. -/
def dropSign (word : List Char) : List Char :=
  match word.reverse with
  | '+' :: rest => rest.reverse
  | '-' :: rest => rest.reverse
  | _ => word

/-- Whether a word may narrow a rule: one to three digits, with a sign after
them or without, or two letters. -/
def isNarrowing (word : List Char) : Bool :=
  isDigits 1 3 (dropSign word) || letterWords.contains (fold word)

/-- What a word that narrows a rule says. -/
inductive Word
  | number (n : Int)
  | weekday (letters : List Char)
  deriving DecidableEq

/-- What a word that narrows a rule says: a minus sign after a number negates
it, and the last day of the month is day -1. -/
def Word.read (word : List Char) : Word :=
  let upper := Text.upperChars word
  if upper = ['L', 'D'] then number (-1)
  else
    match Decimal.signed? (Int32.size / 2) (dropSign upper) with
    | none => weekday upper
    | some n => number (if upper.getLast? = some '-' then -n else n)

/-- The numbers of words that are all numbers. -/
def numbers? (words : List Word) : Option (List Int) :=
  words.mapM fun
    | .number n => some n
    | .weekday _ => none

/-- The weekdays of words that are all weekdays. -/
def weekdays? (words : List Word) : Option (List (List Char)) :=
  words.mapM fun
    | .weekday letters => some letters
    | .number _ => none

/-- The numbers with the weekdays of words that go by positions: every run of
numbers applies to each weekday of the run that follows it. `numbers` is the
run before the words, and `paired` tells whether a weekday has followed it. -/
def positions? (numbers : List Int) (paired : Bool) : List Word → Option (List (Int × List Char))
  | [] => if paired then some [] else none
  | .number n :: rest => positions? (if paired then [n] else numbers ++ [n]) false rest
  | .weekday letters :: rest =>
    if numbers.isEmpty then none
    else (positions? numbers true rest).map ((numbers.map fun n => (n, letters)) ++ ·)

/-- A number with its sign. -/
def signed (n : Int) : List Char :=
  (Decimal.integer n).toList

/-- The part that the words of a rule become: no part for no words, and
nothing if they do not fit the code. -/
def narrowing? (code : Code) (words : List Word) : Option (List (List Char)) :=
  let part (key : String) (values : List (List Char)) := [key.toList ++ '=' :: Text.join ',' values]
  if words.isEmpty then some []
  else match code with
    | .daily => none
    | .weekly => (weekdays? words).map (part "BYDAY")
    | .monthDays => (numbers? words).map fun ns => part "BYMONTHDAY" (ns.map signed)
    | .yearDays => (numbers? words).map fun ns => part "BYYEARDAY" (ns.map signed)
    | .yearMonths => (numbers? words).map fun ns => part "BYMONTH" (ns.map signed)
    | .monthPositions => (positions? [] false words).map fun days =>
        part "BYDAY" (days.map fun (n, letters) => signed n ++ letters)

/-! ### Durations -/

/-- Whether a word is a duration: a number sign and digits, or a date with a
time or without. -/
def isDuration (word : List Char) : Bool :=
  match word with
  | '#' :: digits => !digits.isEmpty && digits.all Text.isDecimalDigit
  | _ =>
    isDigits 8 8 (word.take 8) &&
      match word.drop 8 with
      | [] => true
      | t :: time =>
        t.toUpper == 'T' && isDigits 6 6 (time.take 6) &&
          match time.drop 6 with
          | [] => true
          | [z] => z.toUpper == 'Z'
          | _ => false

/-- The part that the duration of a rule becomes. A rule without one has two
instances, `#0` goes on without end, and a time is one of UTC. -/
def ending (duration : Option (List Char)) : List (List Char) :=
  match duration.map Text.upperChars with
  | none => ["COUNT=2".toList]
  | some ['#', '0'] => []
  | some ('#' :: count) => ["COUNT=".toList ++ count]
  | some bound =>
    let mark := if bound.contains 'T' ∧ bound.getLast? ≠ some 'Z' then ['Z'] else []
    ["UNTIL=".toList ++ bound ++ mark]

/-! ### Rules -/

/-- A rule of vCalendar 1.0: the property's name in capitals and its parameters
as written, the code, the digits of the interval, the words that narrow the
rule, and the duration. -/
structure LegacyRule where
  name : List Char
  parameters : List Char
  code : Code
  interval : List Char
  words : List (List Char)
  duration : Option (List Char)
  deriving DecidableEq

/-- The names of the properties that hold rules. -/
def ruleNames : List (List Char) :=
  ["RRULE".toList, "EXRULE".toList]

/-- The name, in capitals, and the parameters that stand before a rule, and the
rule. -/
def splitName (text : List Char) : List Char × List Char × List Char :=
  match ruleNames.find? fun name => name.isPrefixOf (Text.upperChars text) with
  | none => ("RRULE".toList, [], text)
  | some name =>
    match text.drop name.length with
    | ':' :: rule => (name, [], rule)
    | ';' :: rest =>
      match rest.dropWhile (· != ':') with
      | _ :: rule => (name, ';' :: rest.takeWhile (· != ':'), rule)
      | [] => ("RRULE".toList, [], text)
    | _ => ("RRULE".toList, [], text)

/-- The words that narrow a rule, and the duration, which may be the last
word. -/
def splitWords (words : List (List Char)) : Option (List (List Char) × Option (List Char)) :=
  match words.reverse with
  | last :: before =>
    if isDuration last ∧ before.all isNarrowing then some (before.reverse, some last)
    else if words.all isNarrowing then some (words, none)
    else none
  | [] => some ([], none)

/-- The rule of vCalendar 1.0 that a trimmed text consists of. -/
def read? (text : List Char) : Option LegacyRule := do
  let (name, parameters, rule) := splitName text
  let (code, rest) ← Code.read? (Text.trimStart rule)
  let interval := rest.takeWhile Text.isDecimalDigit
  let rest := rest.dropWhile Text.isDecimalDigit
  if interval.isEmpty then none
  if rest.head?.any (!Text.isBlank ·) then none
  let (words, duration) ← splitWords (Text.words rest)
  return { name, parameters, code, interval, words, duration }

/-- The rule in its present form, if its words fit its code. -/
def LegacyRule.present? (rule : LegacyRule) : Option (List Char) :=
  (narrowing? rule.code (rule.words.map Word.read)).map fun narrowing =>
    let parts :=
      [("FREQ=" ++ rule.code.frequency.name).toList, "INTERVAL=".toList ++ rule.interval] ++
        narrowing ++ ending rule.duration
    rule.name ++ rule.parameters ++ ':' :: Text.join ';' parts

/-- A rule of vCalendar 1.0 in its present form, any other text as it is. -/
def modernizeChars (text : List Char) : List Char :=
  ((read? (Text.trimChars text)).bind LegacyRule.present?).getD text

/-- A rule of vCalendar 1.0 in its present form, any other text as it is. -/
def modernize (text : String) : String :=
  String.ofList (modernizeChars text.toList)

end Recurrence.Legacy
