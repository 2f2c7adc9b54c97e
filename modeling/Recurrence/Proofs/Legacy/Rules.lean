/-
# What vCalendar rules mean

A rule of vCalendar 1.0 is a frequency code with the digits of an interval, words that
narrow it and a duration, behind the name and the parameters of its property or alone. It
is read as the rule of that property, frequency and interval whose lists hold what its
words say and which ends where its duration says.

Key definitions: `Legacy.SpellsHead`, `Legacy.Spelling`, `Legacy.Spelling.rule`.
Key theorems: `Legacy.splitName_spelled`, `Legacy.read?_spelled`,
`Legacy.Spelling.modernizeChars_text`, `Legacy.Spelling.keeps_meaning`.
-/
import Recurrence.Line
import Recurrence.Proofs.Legacy.Present

namespace Recurrence

open ContentLine Decimal Reading Text

namespace Legacy

/-! ### Spellings -/

/-- The letters of a code. -/
def Code.letters : Code → List Char
  | monthDays => ['M', 'D']
  | monthPositions => ['M', 'P']
  | yearDays => ['Y', 'D']
  | yearMonths => ['Y', 'M']
  | daily => ['D']
  | weekly => ['W']

/-- Whether a text in front of a rule says of what kind it is: nothing for a rule that
includes its instants, or the name of its property with extension parameters. -/
inductive SpellsHead : List Char → Effect → Parameters → Prop
  | none : SpellsHead [] .includes .empty
  | named {name parameters gap : List Char} {effect : Effect} {raws : List RawParameter}
      (capitals : upperChars name = effect.ruleName.toList)
      (spells : SpellsParameters parameters raws)
      (extensions : ∀ raw ∈ raws, "X-".toList <+: upperChars raw.name.toList)
      (distinct : (raws.map fun raw => Text.upper raw.name).Nodup)
      (plain : ∀ c ∈ parameters, c ≠ ':' ∧ isBreak c = false)
      (blank : ∀ c ∈ gap, isBlank c = true) :
      SpellsHead (name ++ (parameters ++ ':' :: gap)) effect
        ⟨raws.map fun raw => .extension (Text.upper raw.name) raw.values⟩

/-- **A rule of vCalendar 1.0**, by the pieces of its text and by what they spell. -/
structure Spelling where
  before : List Char
  head : List Char
  letters : List Char
  digits : List Char
  rest : List Char
  after : List Char
  effect : Effect
  parameters : Parameters
  code : Code
  interval : Nat
  /-- The words that narrow the rule. -/
  words : List (List Char)
  narrowing : Narrowing code
  duration : Option (List Char)
  finish : Finish
  before_blank : ∀ c ∈ before, isBlank c = true
  head_spells : SpellsHead head effect parameters
  capitals : upperChars letters = code.letters
  digits_spell : Digits digits interval
  interval_range : 1 ≤ interval ∧ interval ≤ UInt32.size - 1
  separated : Separated (words ++ duration.toList) rest
  words_spell : List.Forall₂ Token.Spells words narrowing.tokens
  inRange : narrowing.InRange
  duration_spells : SpellsDuration duration finish
  after_blank : ∀ c ∈ after, isBlank c = true

namespace Spelling

/-- The pieces from the name to the last word. -/
def core (s : Spelling) : List Char :=
  s.head ++ (s.letters ++ (s.digits ++ s.rest))

/-- The text of a rule. -/
def text (s : Spelling) : List Char :=
  s.before ++ (s.core ++ s.after)

/-- What a rule means. -/
def rule (s : Spelling) : Rule :=
  { s.narrowing.restrict (Rule.every s.code.frequency) with
    effect := s.effect, parameters := s.parameters, finish := s.finish, interval := s.interval }

end Spelling

/-! ### The name and the code -/

variable {head letters rest : List Char} {effect : Effect} {parameters : Parameters} {code : Code}

theorem isToken_letters (h : upperChars letters = code.letters) : IsToken letters := by
  have hcode : IsToken (upperChars letters) := by
    rw [h]
    cases code <;> decide
  exact hcode.of_upper

/-- A code is read whatever the case of its letters is. -/
theorem Code.read?_letters (h : upperChars letters = code.letters) (rest : List Char) :
    Code.read? (letters ++ rest) = some (code, rest) := by
  cases code with
  | monthDays | monthPositions | yearDays | yearMonths =>
    obtain ⟨a, letters, rfl, ha, h⟩ := List.map_eq_cons_iff.1 h
    obtain ⟨b, letters, rfl, hb, h⟩ := List.map_eq_cons_iff.1 h
    obtain rfl := List.map_eq_nil_iff.1 h
    simp [Code.read?, ha, hb]
  | daily | weekly =>
    obtain ⟨a, letters, rfl, ha, h⟩ := List.map_eq_cons_iff.1 h
    obtain rfl := List.map_eq_nil_iff.1 h
    simp [Code.read?, ha]

/-- A rule alone has no name. -/
theorem splitName_letters (h : upperChars letters = code.letters) (rest : List Char) :
    splitName (letters ++ rest) = ("RRULE".toList, [], letters ++ rest) := by
  have hnone : (ruleNames.find? fun name => name.isPrefixOf (upperChars (letters ++ rest))) =
      none := by
    rw [upperChars_append, h]
    cases code <;> rfl
  rw [splitName, hnone]

/-- The name of a property is found in any case, and so are its parameters. -/
theorem splitName_named {name text : List Char} {raws : List RawParameter}
    (hname : upperChars name = effect.ruleName.toList) (hps : SpellsParameters text raws)
    (hplain : ':' ∉ text) (rule : List Char) :
    splitName (name ++ (text ++ ':' :: rule)) = (effect.ruleName.toList, text, rule) := by
  have hfind : (ruleNames.find? fun own =>
      own.isPrefixOf (upperChars (name ++ (text ++ ':' :: rule)))) =
        some effect.ruleName.toList := by
    rw [upperChars_append, hname]
    cases effect <;> rfl
  have hlength : name.length = effect.ruleName.toList.length := by
    rw [← hname, upperChars, List.length_map]
  rw [splitName, hfind]
  simp only [List.drop_left' hlength]
  cases hps with
  | nil => rfl
  | @cons first others p ps _ _ =>
    have hrest : ':' ∉ first ++ others := fun hc => hplain (List.mem_cons_of_mem _ hc)
    simp only [List.cons_append, dropWhile_bne_append hrest, takeWhile_bne_append hrest]

/-- Extension parameters of distinct names are read as they are, with the names in
capitals. -/
theorem readExtensions {raws : List RawParameter}
    (h : ∀ raw ∈ raws, "X-".toList <+: upperChars raw.name.toList)
    (hdistinct : (raws.map fun raw => Text.upper raw.name).Nodup) :
    Parameters.read .rule raws =
      .ok ⟨raws.map fun raw => .extension (Text.upper raw.name) raw.values⟩ := by
  have hextension : ∀ raw ∈ raws, Parameter.isExtensionName (Text.upper raw.name) = true :=
    fun raw hraw => RulePart.isExtensionName_ofList.2 (h raw hraw)
  refine Parameters.read_eq_ok ?_ ?_ fun _ => ?_
  · rw [List.forall₂_map_right_iff, List.forall₂_same]
    intro raw hraw
    obtain ⟨htzid, hvalue⟩ := Parameter.ne_of_isExtensionName (hextension raw hraw)
    simp [Parameter.read, htzid, hvalue, hextension raw hraw]
  · rw [List.map_map]
    exact hdistinct
  · simp [Parameter.isExtension]

/-- **What stands in front of a code is split off.** -/
theorem splitName_spelled (h : SpellsHead head effect parameters)
    (hletters : upperChars letters = code.letters) (rest : List Char) :
    ∃ text raws gap, splitName (head ++ (letters ++ rest)) =
        (effect.ruleName.toList, text, gap ++ (letters ++ rest)) ∧
      (∀ c ∈ gap, isBlank c = true) ∧ SpellsParameters text raws ∧
      (∀ c ∈ text, isBreak c = false) ∧ Parameters.read .rule raws = .ok parameters := by
  cases h with
  | none =>
    exact ⟨[], [], [], splitName_letters hletters rest, by simp, .nil, by simp, rfl⟩
  | @named name text gap _ raws hname hps hextensions hdistinct hplain hblank =>
    refine ⟨text, raws, gap, ?_, hblank, hps, fun c hc => (hplain c hc).2,
      readExtensions hextensions hdistinct⟩
    have hcolon : ':' ∉ text := fun hc => (hplain ':' hc).1 rfl
    rw [List.append_assoc, List.append_assoc, List.cons_append]
    exact splitName_named hname hps hcolon _

/-! ### Reading the words -/

variable {digits : List Char} {n : Nat} {texts : List (List Char)}
  {tokens : List Token} {duration : Option (List Char)} {finish : Finish}

/-- No blank is a digit of any script. -/
theorem not_isDecimalDigit {c : Char} (h : isBlank c = true) : isDecimalDigit c = false := by
  have hzeros : ∀ first ∈ decimalZeros, 0x20 < first ∧ (first + 9 < 0x85 ∨ 0xA0 < first) ∧
      (first + 9 < 0x1680 ∨ 0x1680 < first) ∧ (first + 9 < 0x2000 ∨ 0x3000 < first) := by decide
  simp only [isBlank, Bool.or_eq_true, Bool.and_eq_true, decide_eq_true_eq, beq_iff_eq] at h
  refine List.any_eq_false.2 fun first hfirst => ?_
  have := hzeros first hfirst
  rw [Bool.and_eq_true, decide_eq_true_eq, decide_eq_true_eq]
  omega

/-- The words of tokens and of a duration are words. -/
theorem isWord_of_spells (htokens : List.Forall₂ Token.Spells texts tokens)
    (hduration : SpellsDuration duration finish) :
    ∀ word ∈ texts ++ duration.toList, IsWord word := by
  rw [List.forall_mem_append]
  refine ⟨forall_mem_of_forall₂ htokens fun _ _ => Token.Spells.isWord, ?_⟩
  cases duration with
  | none => simp
  | some word => exact List.forall_mem_singleton.2 hduration.isWord

/-- **A rule of vCalendar is taken apart** into its code, its digits and its words. -/
theorem read?_spelled {text name parameters gap : List Char}
    (hname : splitName text = (name, parameters, gap ++ (letters ++ (digits ++ rest))))
    (hgap : ∀ c ∈ gap, isBlank c = true) (hletters : upperChars letters = code.letters)
    (hdigits : Digits digits n) (hrest : Separated (texts ++ duration.toList) rest)
    (htokens : List.Forall₂ Token.Spells texts tokens)
    (hduration : SpellsDuration duration finish) :
    read? text = some ⟨name, parameters, code, digits, texts, duration⟩ := by
  have htrim : trimStart (gap ++ (letters ++ (digits ++ rest))) = letters ++ (digits ++ rest) := by
    obtain ⟨c, letters, rfl⟩ := List.exists_cons_of_ne_nil (isToken_letters hletters).ne_nil
    rw [trimStart_append hgap]
    refine trimStart_eq_self fun d hd => Option.some.inj hd ▸ ?_
    exact (isToken_letters hletters).isWord.isBlank c List.mem_cons_self
  have hspan : span isDecimalDigit (digits ++ rest) = (digits, rest) :=
    span_append (fun c hc => isDecimalDigit_of_isDigit (hdigits.isDigit c hc))
      fun c hc => not_isDecimalDigit (hrest.head c hc)
  obtain ⟨htake, hdrop⟩ := Prod.mk.inj hspan
  have hempty : ¬ digits.isEmpty = true := by simpa using hdigits.ne_nil
  have hhead : ¬ (rest.head?.any (!isBlank ·)) = true := by
    cases hc : rest.head? with
    | none => simp
    | some c => simp [hrest.head c (hc ▸ rfl)]
  have hwords : words rest = texts ++ duration.toList :=
    words_of_separated hrest (isWord_of_spells htokens hduration)
  rw [read?, hname]
  simp only [htrim, Code.read?_letters hletters, Option.bind_eq_bind, Option.bind_some, htake,
    hdrop, if_neg hempty, if_neg hhead, hwords, splitWords_spelled htokens hduration]
  rfl

theorem map_read (h : List.Forall₂ Token.Spells texts tokens) :
    texts.map Word.read = tokens.map Token.word := by
  induction h with
  | nil => rfl
  | cons h _ ih => rw [List.map_cons, List.map_cons, h.read, ih]

/-! ### Whole texts -/

/-- What stands in front of a code begins with no blank, and so does the code. -/
theorem not_isBlank_head (h : SpellsHead head effect parameters)
    (hletters : upperChars letters = code.letters) (rest : List Char) :
    ∀ c ∈ (head ++ (letters ++ rest)).head?, isBlank c = false := by
  have htoken : ∀ {text : List Char}, IsToken text → ∀ rest, ∀ c ∈ (text ++ rest).head?,
      isBlank c = false := by
    intro text htext rest c hc
    obtain ⟨first, others, rfl⟩ := List.exists_cons_of_ne_nil htext.ne_nil
    exact htext.isWord.isBlank c (Option.some.inj hc ▸ List.mem_cons_self)
  cases h with
  | none => exact htoken (isToken_letters hletters) rest
  | @named name text gap _ raws hname =>
    have hcapitals : IsToken (upperChars name) := by
      rw [hname]
      cases effect <;> decide
    rw [List.append_assoc]
    exact htoken hcapitals.of_upper _

namespace Spelling

variable (s : Spelling)

/-- The blanks around a rule are trimmed off. -/
theorem trimChars_text : trimChars s.text = s.core := by
  have hne : s.digits ++ s.rest ≠ [] :=
    List.append_ne_nil_of_left_ne_nil s.digits_spell.ne_nil s.rest
  refine trimChars_between s.before_blank s.after_blank
    (not_isBlank_head s.head_spells s.capitals (s.digits ++ s.rest)) ?_
  rw [core, List.getLast?_append_of_ne_nil _ (List.append_ne_nil_of_right_ne_nil s.letters hne),
    List.getLast?_append_of_ne_nil _ hne]
  have hdigits := (isToken_of_digits s.digits_spell).isWord.isBlank
  exact not_isBlank_last (fun c hc => hdigits c (List.mem_of_getLast? hc))
    (s.separated.last (isWord_of_spells s.words_spell s.duration_spells))

/-- The parts of a rule in its present form. -/
def present : List Char :=
  join ';' (presentTexts s.code.frequency s.digits (s.narrowing.said.map RulePart.chars) s.duration)

/-- **A rule is brought into its present form**, with its name in capitals and its
parameters as they are. -/
theorem modernizeChars_text : ∃ text raws,
    modernizeChars s.text = s.effect.ruleName.toList ++ (text ++ ':' :: s.present) ∧
      SpellsParameters text raws ∧ (∀ c ∈ text, isBreak c = false) ∧
      Parameters.read .rule raws = .ok s.parameters := by
  obtain ⟨text, raws, gap, hsplit, hgap, hspells, hbreaks, hread⟩ :=
    splitName_spelled s.head_spells s.capitals (s.digits ++ s.rest)
  refine ⟨text, raws, ?_, hspells, hbreaks, hread⟩
  have hrule := read?_spelled hsplit hgap s.capitals s.digits_spell s.separated s.words_spell
    s.duration_spells
  have hnarrowing : narrowing? s.code (s.words.map Word.read) =
      some (s.narrowing.said.map RulePart.chars) := by
    rw [map_read s.words_spell, s.narrowing.narrowing?_tokens s.inRange]
  rw [modernizeChars, trimChars_text, core, hrule, Option.bind_some, LegacyRule.present?,
    hnarrowing, Option.map_some, Option.getD_some, List.append_assoc]
  rfl

/-- **Rules of vCalendar 1.0 keep their meaning.** -/
theorem keeps_meaning (database : Database) (zone : Zone) :
    Line.readIn database (String.ofList s.text) zone = .ok (.rule s.rule) := by
  obtain ⟨text, raws, hmodern, hspells, hbreaks, hparameters⟩ := s.modernizeChars_text
  obtain ⟨hrule, hplain⟩ := read_present s.digits_spell s.interval_range s.inRange
    s.duration_spells
  have htoken : IsToken s.effect.ruleName.toList := by cases s.effect <;> decide
  have hline := read_append htoken hspells (List.forall_mem_append.2 ⟨hbreaks, hplain⟩)
  have hname : Text.upper (String.ofList s.effect.ruleName.toList) = s.effect.ruleName := by
    cases s.effect <;> decide
  rw [Line.readIn, Legacy.modernize, String.toList_ofList, hmodern, bind_eq_ok]
  refine ⟨_, hline, ?_⟩
  rw [inProduction_eq_ok, hname, Line.ofContentLine_ruleName]
  refine map_eq_ok.2 ⟨s.rule, ?_, rfl⟩
  rw [Rule.ofLine, bind_eq_ok]
  exact ⟨s.parameters, hparameters, bind_eq_ok.2 ⟨_, hrule, rfl⟩⟩

/-- Mondays and Tuesdays at either end of every other month and the Wednesday before the
last, excluded up to the first of July 1999, in letters of either case. -/
def lastWednesdays : Spelling where
  before := [' ']
  head := "exrule;x-note=\"a;b\",c: ".toList
  letters := "mP".toList
  digits := "02".toList
  rest := (["1+", "ld", "mo", "Tu", "2-", "WE", "19990701t120000"].map String.toList).flatMap
    (' ' :: ·)
  after := ['\n']
  effect := .excludes
  parameters := ⟨[.extension "X-NOTE" ["a;b", "c"]]⟩
  code := .monthPositions
  interval := 2
  words := ["1+", "ld", "mo", "Tu", "2-", "WE"].map String.toList
  narrowing := .monthPositions [([1, -1], [.monday, .tuesday]), ([-2], [.wednesday])]
  duration := some "19990701t120000".toList
  finish := .untilUtc (.atTime 1999 7 1 12 0 0)
  before_blank := by decide
  head_spells := by
    have hparameter : SpellsParameter "x-note=\"a;b\",c".toList ⟨"x-note", ["a;b", "c"]⟩ := by
      refine ⟨by decide, ["\"a;b\"".toList, "c".toList], by decide, by decide, ?_⟩
      exact .cons (@SpellsValue.quoted "a;b".toList (by decide))
        (.cons (@SpellsValue.bare "c".toList (by decide)) .nil)
    exact @SpellsHead.named "exrule".toList ";x-note=\"a;b\",c".toList [' '] .excludes _
      (by decide) (.cons hparameter .nil) (by decide) (by decide) (by decide) (by decide)
  capitals := by decide
  digits_spell := ⟨by decide, by decide, by decide⟩
  interval_range := by decide
  separated := separated_flatMap _
  words_spell := by
    have hone : Digits "1".toList 1 := ⟨by decide, by decide, by decide⟩
    have htwo : Digits "2".toList 2 := ⟨by decide, by decide, by decide⟩
    exact .cons (.plus hone (by decide)) <| .cons (.lastDay (by decide)) <|
      .cons (.weekday (by decide)) <| .cons (.weekday (by decide)) <|
      .cons (.minus htwo (by decide)) <| .cons (.weekday (by decide)) .nil
  inRange := by simp [Narrowing.InRange]
  duration_spells := by
    have hwritable : (Moment.atTime 1999 7 1 12 0 0).Writable :=
      ⟨⟨by decide, by decide⟩, by decide, by decide⟩
    have hspells : Moment.Spells "19990701t120000".toList (.atTime 1999 7 1 12 0 0) false :=
      ⟨hwritable, by decide, by decide⟩
    exact .time hspells rfl
  after_blank := by decide

/-- A rule with a name, parameters, runs and a bound. -/
theorem keeps_meaning_lastWednesdays :
    Line.read " exrule;x-note=\"a;b\",c: mP02 1+ ld mo Tu 2- WE 19990701t120000\n" .utc =
      .ok (.rule { Rule.every .monthly with
        effect := .excludes
        finish := .untilUtc (.atTime 1999 7 1 12 0 0)
        interval := 2
        byDay := [⟨1, .monday⟩, ⟨-1, .monday⟩, ⟨1, .tuesday⟩, ⟨-1, .tuesday⟩, ⟨-2, .wednesday⟩]
        parameters := ⟨[.extension "X-NOTE" ["a;b", "c"]]⟩ }) :=
  lastWednesdays.keeps_meaning .known .utc

end Spelling

end Legacy

end Recurrence
