/-
# Words of vCalendar rules

Behind its code a rule of vCalendar 1.0 has words, each behind blanks: numbers of at
most three digits with a sign behind them or without, weekdays, the last day of the
month, and at the end a duration. The words are found again whatever blanks stand
between them, each says what it spells, and the duration is told from the words before
it by its form.

Key definitions: `Text.Separated`, `Legacy.Token`, `Legacy.Token.Spells`,
`Legacy.SpellsDuration`.
Key theorems: `Text.words_of_separated`, `Legacy.Token.Spells.read`,
`Legacy.splitWords_spelled`.
-/
import Recurrence.Legacy
import Recurrence.Proofs.Moment.Grammar
import Recurrence.Proofs.Text.ContentLines
import Recurrence.Proofs.Text.Lines

namespace Recurrence

open ContentLine Decimal Reading Text

/-! ### Words behind blanks -/

namespace Text

/-- Whether a text is a word: it is not empty and holds no blank. -/
structure IsWord (text : List Char) : Prop where
  ne_nil : text ≠ []
  isBlank : ∀ c ∈ text, isBlank c = false

theorem IsToken.isWord {text : List Char} (h : IsToken text) : IsWord text :=
  ⟨h.ne_nil, fun c hc => isBlank_of_isNameChar (h.chars c hc)⟩

theorem isToken_of_digits {text : List Char} {n : Nat} (h : Digits text n) : IsToken text :=
  ⟨h.ne_nil, fun c hc => isNameChar_iff.2 (Or.inl (isDigit_iff.1 (h.isDigit c hc)))⟩

/-- Whether a text consists of words, each behind blanks. -/
inductive Separated : List (List Char) → List Char → Prop
  | nil : Separated [] []
  | cons {gap word text : List Char} {words : List (List Char)} (gap_ne : gap ≠ [])
      (blank : ∀ c ∈ gap, isBlank c = true) (rest : Separated words text) :
      Separated (word :: words) (gap ++ (word ++ text))

variable {ws : List (List Char)} {text before after : List Char}

/-- Words are separated by a space before each. -/
theorem separated_flatMap (ws : List (List Char)) : Separated ws (ws.flatMap (' ' :: ·)) := by
  induction ws with
  | nil => exact .nil
  | cons word ws ih => exact .cons (List.cons_ne_nil ' ' []) (by decide) ih

/-- Words end at the blanks before the next one. -/
theorem Separated.head (h : Separated ws text) : ∀ c ∈ text.head?, isBlank c = true := by
  cases h with
  | nil => simp
  | cons hne hblank =>
    obtain ⟨c, gap, rfl⟩ := List.exists_cons_of_ne_nil hne
    exact fun d hd => Option.some.inj hd ▸ hblank c List.mem_cons_self

/-- What ends with no blank still does with more behind it that ends with none. -/
theorem not_isBlank_last (h : ∀ c ∈ before.getLast?, isBlank c = false)
    (h' : ∀ c ∈ after.getLast?, isBlank c = false) :
    ∀ c ∈ (before ++ after).getLast?, isBlank c = false := by
  intro c hc
  rw [List.getLast?_append] at hc
  cases hlast : after.getLast? with
  | some d =>
    rw [hlast, Option.some_or] at hc
    exact h' c (hlast ▸ hc)
  | none =>
    rw [hlast, Option.none_or] at hc
    exact h c hc

/-- The last word ends the text. -/
theorem Separated.last (h : Separated ws text) (hws : ∀ word ∈ ws, IsWord word) :
    ∀ c ∈ text.getLast?, isBlank c = false := by
  induction h with
  | nil => simp
  | @cons gap word text words hne hblank hrest ih =>
    rw [List.forall_mem_cons] at hws
    rw [List.getLast?_append_of_ne_nil _ (List.append_ne_nil_of_left_ne_nil hws.1.ne_nil text)]
    exact not_isBlank_last (fun c hc => hws.1.isBlank c (List.mem_of_getLast? hc)) (ih hws.2)

theorem words_cons {c : Char} {rest : List Char} (h : trimStart text = c :: rest) :
    words text = (c :: (firstWord rest).1) :: words (firstWord rest).2 := by
  rw [words]
  split
  · rename_i hcut
    exact absurd (h.symm.trans hcut) (by simp)
  · rename_i hcut
    obtain ⟨rfl, rfl⟩ := List.cons.inj (h.symm.trans hcut)
    rfl

/-- **Words are found whatever blanks they stand behind.** -/
theorem words_of_separated (h : Separated ws text) (hws : ∀ word ∈ ws, IsWord word) :
    words text = ws := by
  induction h with
  | nil =>
    rw [words]
    rfl
  | @cons gap word text words hne hblank hrest ih =>
    rw [List.forall_mem_cons] at hws
    obtain ⟨hword, hws⟩ := hws
    obtain ⟨c, letters, rfl⟩ := List.exists_cons_of_ne_nil hword.ne_nil
    have hplain := List.forall_mem_cons.1 hword.isBlank
    have hcut : trimStart (gap ++ (c :: letters ++ text)) = c :: (letters ++ text) := by
      rw [trimStart_append hblank]
      exact trimStart_eq_self fun d hd => Option.some.inj hd ▸ hplain.1
    have hfirst : firstWord (letters ++ text) = (letters, text) :=
      span_append (fun d hd => by simp [hplain.2 d hd]) fun d hd => by simp [hrest.head d hd]
    rw [words_cons hcut, hfirst, ih hws]

end Text

namespace Legacy

/-! ### Tokens -/

/-- What a word that narrows a rule means. -/
inductive Token
  | number (n : Int)
  | weekday (day : Weekday)

namespace Token

/-- What the word of a token says. -/
def word : Token → Word
  | number n => .number n
  | weekday day => .weekday day.code.toList

/-- Whether a text is a word for a token: a number of at most three digits, a minus sign
behind it negating it, the last day of the month, or a weekday. -/
inductive Spells : List Char → Token → Prop
  | plain {digits : List Char} {n : Nat} (digits_n : Digits digits n)
      (length : digits.length ≤ 3) : Spells digits (number n)
  | plus {digits : List Char} {n : Nat} (digits_n : Digits digits n)
      (length : digits.length ≤ 3) : Spells (digits ++ ['+']) (number n)
  | minus {digits : List Char} {n : Nat} (digits_n : Digits digits n)
      (length : digits.length ≤ 3) : Spells (digits ++ ['-']) (number (-n))
  | lastDay {letters : List Char} (capitals : upperChars letters = ['L', 'D']) :
      Spells letters (number (-1))
  | weekday {letters : List Char} {day : Weekday}
      (capitals : upperChars letters = day.code.toList) : Spells letters (weekday day)

variable {text : List Char} {token : Token}

/-- The words of tokens have letters and digits, and a sign at most. -/
theorem Spells.chars (h : Spells text token) :
    ∀ c ∈ text, isNameChar c = true ∨ c = '+' := by
  have hdigits : ∀ {digits : List Char} {n : Nat}, Digits digits n →
      ∀ c ∈ digits, isNameChar c = true ∨ c = '+' :=
    fun h c hc => Or.inl ((isToken_of_digits h).chars c hc)
  have hletters : ∀ {letters : List Char}, IsToken (upperChars letters) →
      ∀ c ∈ letters, isNameChar c = true ∨ c = '+' :=
    fun h c hc => Or.inl (h.of_upper.chars c hc)
  cases h with
  | plain h => exact hdigits h
  | plus h => exact List.forall_mem_append.2 ⟨hdigits h, by simp⟩
  | minus h => exact List.forall_mem_append.2 ⟨hdigits h, by simp [isNameChar]⟩
  | lastDay h => exact hletters (by rw [h]; decide)
  | @weekday _ day h => exact hletters (by rw [h]; cases day <;> decide)

theorem Spells.isWord (h : Spells text token) : IsWord text := by
  refine ⟨?_, fun c hc => ?_⟩
  · cases h with
    | plain h => exact h.ne_nil
    | plus | minus => exact List.append_ne_nil_of_right_ne_nil _ (List.cons_ne_nil _ _)
    | lastDay h =>
      rintro rfl
      exact absurd h (by decide)
    | @weekday _ day h =>
      rintro rfl
      cases day <;> exact absurd h (by decide)
  · rcases h.chars c hc with hc | rfl
    · exact isBlank_of_isNameChar hc
    · rfl

theorem Spells.length_le (h : Spells text token) : text.length ≤ 4 := by
  have hletters : ∀ {letters capitals : List Char}, upperChars letters = capitals →
      letters.length = capitals.length := by
    rintro letters _ rfl
    exact (List.length_map _).symm
  cases h with
  | plain _ hlength => omega
  | plus _ hlength | minus _ hlength =>
    rw [List.length_append, List.length_singleton]
    exact Nat.succ_le_succ hlength
  | lastDay h => exact (hletters h).trans_le (by decide)
  | @weekday _ day h => exact (hletters h).trans_le (by cases day <;> decide)

/-- No word of a token is a duration. -/
theorem Spells.not_isDuration (h : Spells text token) : isDuration text = false := by
  have hshort : isDigits 8 8 (text.take 8) = false := by
    have hlength := h.length_le
    rw [isDigits, List.length_take, Nat.min_eq_right (by omega),
      decide_eq_false (by omega : ¬ 8 ≤ text.length), Bool.false_and, Bool.false_and]
  unfold isDuration
  split
  · exact absurd (h.chars '#' List.mem_cons_self) (by decide)
  · rw [hshort, Bool.false_and]

/-! ### Numbers and letters -/

theorem dropSign_of_digits {digits : List Char} {n : Nat} (h : Digits digits n) :
    dropSign digits = digits := by
  have hsign : ∀ c rest, digits.reverse = c :: rest → c.isDigit = true := fun c rest heq =>
    h.isDigit c (List.mem_reverse.1 (heq ▸ List.mem_cons_self))
  unfold dropSign
  split
  · rename_i heq
    exact absurd (hsign _ _ heq) (by decide)
  · rename_i heq
    exact absurd (hsign _ _ heq) (by decide)
  · rfl

theorem dropSign_append {sign : Char} (h : sign = '+' ∨ sign = '-') (digits : List Char) :
    dropSign (digits ++ [sign]) = digits := by
  rcases h with rfl | rfl <;> simp [dropSign]

/-- The word of a number narrows a rule. -/
theorem isNarrowing_of_digits {digits : List Char} {n : Nat} (h : Digits digits n)
    (hlength : digits.length ≤ 3) (hdrop : dropSign text = digits) :
    isNarrowing text = true := by
  have hdigits : isDigits 1 3 digits = true := by
    have hpos := List.length_pos_iff.2 h.ne_nil
    have hall : digits.all isDecimalDigit = true :=
      List.all_eq_true.2 fun c hc => isDecimalDigit_of_isDigit (h.isDigit c hc)
    rw [isDigits, hall, decide_eq_true hlength, decide_eq_true (by omega : 1 ≤ digits.length)]
    rfl
  rw [isNarrowing, hdrop, hdigits, Bool.true_or]

/-- The letters of a word that narrows a rule are letters of ASCII. -/
theorem isNarrowing_of_letters (h : upperChars text ∈ letterWords)
    (hletters : IsToken (upperChars text)) : isNarrowing text = true := by
  have hfold : fold text = upperChars text := by
    refine List.map_congr_left fun c hc => if_neg ?_
    have := isNameChar_iff.1 (hletters.of_upper.chars c hc)
    omega
  rw [isNarrowing, hfold, List.contains_iff_mem.2 h, Bool.or_true]

theorem Spells.isNarrowing (h : Spells text token) : isNarrowing text = true := by
  cases h with
  | plain h hlength => exact isNarrowing_of_digits h hlength (dropSign_of_digits h)
  | plus h hlength => exact isNarrowing_of_digits h hlength (dropSign_append (Or.inl rfl) _)
  | minus h hlength => exact isNarrowing_of_digits h hlength (dropSign_append (Or.inr rfl) _)
  | lastDay h =>
    refine isNarrowing_of_letters ?_ ?_ <;> rw [h] <;> decide
  | @weekday _ day h =>
    refine isNarrowing_of_letters ?_ ?_ <;> rw [h] <;> cases day <;> decide

/-- A number is read without its sign, which may negate it. -/
theorem read_of_digits {digits : List Char} {n : Nat} (h : Digits digits n)
    (hlength : digits.length ≤ 3) (hdrop : dropSign text = digits)
    (hupper : upperChars text = text) :
    Word.read text = .number (if text.getLast? = some '-' then -n else n) := by
  have hlast : text ≠ ['L', 'D'] := by
    rintro rfl
    exact absurd (h.isDigit 'L' (hdrop ▸ List.mem_cons_self)) (by decide)
  have hsmall : n < 10 ^ 3 := by
    rw [← h.value]
    exact (value_lt (List.all_eq_true.2 h.isDigit)).trans_le
      (Nat.pow_le_pow_right (by decide) hlength)
  have hsigned : signed? (Int32.size / 2) digits = some (n : Int) := by
    refine signed?_eq_some_iff.2 ⟨.plain h, ?_⟩
    simp only [Int32.size]
    omega
  simp only [Word.read, hupper, if_neg hlast, hdrop, hsigned]

/-- **A word says what it spells.** -/
theorem Spells.read (h : Spells text token) : Word.read text = token.word := by
  have happend : ∀ {digits : List Char} {n : Nat} (_ : Digits digits n) (sign : Char),
      sign.toUpper = sign → upperChars (digits ++ [sign]) = digits ++ [sign] := by
    intro digits n h sign hsign
    rw [upperChars_append, upperChars_of_digits h.isDigit, upperChars, List.map_singleton, hsign]
  cases h with
  | plain h hlength =>
    have hplain : text.getLast? ≠ some '-' := fun heq =>
      absurd (h.isDigit '-' (List.mem_of_getLast? heq)) (by decide)
    rw [read_of_digits h hlength (dropSign_of_digits h) (upperChars_of_digits h.isDigit),
      if_neg hplain]
    rfl
  | plus h hlength =>
    rw [read_of_digits h hlength (dropSign_append (Or.inl rfl) _) (happend h '+' (by decide)),
      List.getLast?_concat, if_neg (by decide)]
    rfl
  | minus h hlength =>
    rw [read_of_digits h hlength (dropSign_append (Or.inr rfl) _) (happend h '-' (by decide)),
      List.getLast?_concat, if_pos rfl]
    rfl
  | lastDay h => rw [Word.read, h]; rfl
  | @weekday _ day h => rw [Word.read, h]; cases day <;> rfl

end Token

/-! ### Durations -/

/-- Whether a text that may follow the words that narrow a rule sets its end: two
instances without it, no end for `#0`, a number of instances, or a bound, which is one
of UTC if it has a time. -/
inductive SpellsDuration : Option (List Char) → Finish → Prop
  | none : SpellsDuration none (.count 2)
  | endless : SpellsDuration (some ['#', '0']) .never
  | count {digits : List Char} {n : Nat} (digits_n : Digits digits n) (least : 1 ≤ n)
      (most : n ≤ UInt32.size - 1) : SpellsDuration (some ('#' :: digits)) (.count n)
  | date {text : List Char} {bound : Moment} (spells : Moment.Spells text bound false)
      (dated : bound.hasTime = false) : SpellsDuration (some text) (.untilLocal bound)
  | time {text : List Char} {bound : Moment} {utc : Bool}
      (spells : Moment.Spells text bound utc) (timed : bound.hasTime = true) :
      SpellsDuration (some text) (.untilUtc bound)

theorem length_upperChars (text : List Char) : (upperChars text).length = text.length :=
  List.length_map _

theorem isDigits_of_upper {text digits : List Char} {least most : Nat}
    (h : upperChars text = digits) (hdigits : ∀ c ∈ digits, c.isDigit = true)
    (hlength : least ≤ digits.length ∧ digits.length ≤ most) : isDigits least most text = true := by
  have hsame : text.length = digits.length := by rw [← h, length_upperChars]
  have hall : text.all isDecimalDigit = true := List.all_eq_true.2 fun c hc =>
    isDecimalDigit_of_isDigit (isDigit_toUpper c ▸ hdigits _ (h ▸ List.mem_map_of_mem hc))
  rw [isDigits, hall, hsame, decide_eq_true hlength.1, decide_eq_true hlength.2]
  rfl

/-- A word of eight digits is a duration. -/
theorem isDuration_date {date : List Char} (hdate : isDigits 8 8 date = true)
    (hlength : date.length = 8) (hplain : '#' ∉ date) : isDuration date = true := by
  unfold isDuration
  split
  · exact absurd List.mem_cons_self hplain
  · rw [List.take_of_length_le hlength.le, List.drop_of_length_le hlength.le, hdate]
    rfl

/-- So is one of eight digits, a T, six digits and perhaps a Z. -/
theorem isDuration_time {date time marked : List Char} {t : Char} {utc : Bool}
    (hdate : isDigits 8 8 date = true) (hdateLength : date.length = 8) (ht : t.toUpper = 'T')
    (htime : isDigits 6 6 time = true) (htimeLength : time.length = 6)
    (hmark : upperChars marked = Moment.mark utc) (hplain : '#' ∉ date) :
    isDuration (date ++ t :: (time ++ marked)) = true := by
  unfold isDuration
  split
  · rename_i heq
    obtain ⟨c, digits, rfl⟩ := List.exists_cons_of_length_eq_add_one hdateLength
    exact absurd ((List.cons.inj heq).1 ▸ List.mem_cons_self) hplain
  · rw [List.take_left' hdateLength, List.drop_left' hdateLength, hdate]
    simp only [List.take_left' htimeLength, List.drop_left' htimeLength, htime, ht,
      beq_self_eq_true, Bool.true_and]
    cases utc with
    | false =>
      obtain rfl := List.map_eq_nil_iff.1 hmark
      rfl
    | true =>
      obtain ⟨z, none, rfl, hz, hnone⟩ := List.map_eq_cons_iff.1 hmark
      obtain rfl := List.map_eq_nil_iff.1 hnone
      exact beq_iff_eq.2 hz

/-- A bound is a duration: eight digits, and a T and six digits if it has a time. -/
theorem isDuration_of_spells {text : List Char} {bound : Moment} {utc : Bool}
    (h : Moment.Spells text bound utc) : isDuration text = true := by
  obtain ⟨d, time⟩ := bound
  have hlength := Moment.dateChars_length h.writable.valid.1 h.writable.year
  have hdate : ∀ {date : List Char}, upperChars date = d.chars →
      isDigits 8 8 date = true ∧ date.length = 8 := fun heq =>
    ⟨isDigits_of_upper heq (Moment.isDigit_dateChars h.writable.year.1)
      ⟨hlength.ge, hlength.le⟩, by rw [← length_upperChars, heq, hlength]⟩
  have htoken : IsToken (upperChars text) := h.capitals ▸ Moment.isToken_marked _ _
  have hplain : '#' ∉ text := htoken.of_upper.not_mem (by decide)
  have hcapitals := h.capitals
  cases time with
  | none =>
    obtain rfl : utc = false := by
      cases utc with
      | false => rfl
      | true => exact absurd (h.timed rfl) (by simp [Moment.hasTime])
    obtain ⟨hdigits, height⟩ := hdate (hcapitals.trans (List.append_nil _))
    exact isDuration_date hdigits height hplain
  | some t =>
    have hsix : t.chars.length = 6 := by
      obtain ⟨hhour, hminute, hsecond⟩ := Moment.timeChars_length (h.writable.valid.2 t rfl)
      rw [TimeOfDay.chars, List.length_append, List.length_append, hhour, hminute, hsecond]
    rw [Moment.chars, List.append_assoc, upperChars] at hcapitals
    obtain ⟨date, rest, rfl, hdatePart, hrest⟩ := List.map_eq_append_iff.1 hcapitals
    obtain ⟨letter, rest, rfl, hletter, hrest⟩ := List.map_eq_cons_iff.1 hrest
    obtain ⟨digits, marked, rfl, hdigits, hmark⟩ := List.map_eq_append_iff.1 hrest
    obtain ⟨height, hdateLength⟩ := hdate hdatePart
    exact isDuration_time height hdateLength hletter
      (isDigits_of_upper hdigits (Moment.isDigit_timeChars t) ⟨hsix.ge, hsix.le⟩)
      (by rw [← hsix, ← hdigits, List.length_map]) hmark
      fun hmem => hplain (List.mem_append_left _ hmem)

theorem SpellsDuration.isWord {word : List Char} {finish : Finish}
    (h : SpellsDuration (some word) finish) : IsWord word := by
  cases h with
  | endless => exact ⟨by decide, by decide⟩
  | count h =>
    exact ⟨List.cons_ne_nil _ _, List.forall_mem_cons.2 ⟨rfl, (isToken_of_digits h).isWord.isBlank⟩⟩
  | date h | time h => exact (h.capitals ▸ Moment.isToken_marked _ _ : IsToken _).of_upper.isWord

theorem SpellsDuration.isDuration {word : List Char} {finish : Finish}
    (h : SpellsDuration (some word) finish) : isDuration word = true := by
  cases h with
  | endless => decide
  | @count digits _ h =>
    have hall : digits.all isDecimalDigit = true :=
      List.all_eq_true.2 fun c hc => isDecimalDigit_of_isDigit (h.isDigit c hc)
    simp only [Legacy.isDuration, hall, Bool.and_true, Bool.not_eq_true', List.isEmpty_eq_false_iff]
    exact h.ne_nil
  | date h | time h => exact isDuration_of_spells h

/-- **The duration is told from the words before it.** -/
theorem splitWords_spelled {texts : List (List Char)} {tokens : List Token}
    {duration : Option (List Char)} {finish : Finish}
    (htokens : List.Forall₂ Token.Spells texts tokens)
    (hduration : SpellsDuration duration finish) :
    splitWords (texts ++ duration.toList) = some (texts, duration) := by
  have hnarrowing := forall_mem_of_forall₂ htokens fun _ _ => Token.Spells.isNarrowing
  have hplain := forall_mem_of_forall₂ htokens fun _ _ => Token.Spells.not_isDuration
  cases duration with
  | none =>
    rw [Option.toList_none, List.append_nil, splitWords]
    split
    · rename_i last before heq
      have hlast : last ∈ texts := List.mem_reverse.1 (heq ▸ List.mem_cons_self)
      rw [if_neg (by simp [hplain last hlast]), if_pos (List.all_eq_true.2 hnarrowing)]
    · rename_i heq
      rw [List.reverse_eq_nil_iff.1 heq]
  | some word =>
    have hall : texts.reverse.all isNarrowing = true :=
      List.all_eq_true.2 fun text htext => hnarrowing text (List.mem_reverse.1 htext)
    rw [Option.toList_some, splitWords, List.reverse_concat']
    simp only [hduration.isDuration, hall, and_self, if_true, List.reverse_reverse]

end Legacy

end Recurrence
