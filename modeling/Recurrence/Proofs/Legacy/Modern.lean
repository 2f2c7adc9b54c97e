/-
# Rules in their present form are left alone

A rule in its present form says its frequency behind the colon that ends its name and
parameters, with an equals sign, which no rule of vCalendar 1.0 holds. A colon between the
quotes of a parameter changes nothing: it only lets more stand behind the first colon. So
every text that is brought into the present form has it, and stays as it is from then on,
and so does what is written of a line. Modernizing a text twice, or a text that is going to
be read anyway, makes no difference.

Key definitions: `Legacy.Modern`.
Key theorems: `Legacy.modern_iff`, `Legacy.modernizeChars_modern`,
`Legacy.modernizeChars_ne_iff`, `Legacy.modernize_keeps_modern`.
-/
import Recurrence.Proofs.Rule.Texts
import Recurrence.Proofs.Set.DateTexts

namespace Recurrence

open ContentLine Text

namespace Legacy

variable {text : List Char}

/-! ### Modern texts -/

/-- Whether a text holds an equals sign behind its first colon, or anywhere if it holds no
colon. -/
def Modern (text : List Char) : Prop :=
  (∃ before after, text = before ++ ':' :: after ∧ ':' ∉ before ∧ '=' ∈ after) ∨
    (':' ∉ text ∧ '=' ∈ text)

theorem modern_iff : Modern text ↔ '=' ∈ behindColon text := by
  constructor
  · rintro (⟨before, after, rfl, -, hafter⟩ | ⟨hcolon, hequals⟩)
    · exact mem_behindColon_append hafter
    · rwa [behindColon, dropWhile_bne_eq_nil_iff.2 hcolon]
  · intro h
    cases hcut : text.dropWhile (· != ':') with
    | nil =>
      rw [behindColon, hcut] at h
      exact Or.inr ⟨dropWhile_bne_eq_nil_iff.1 hcut, h⟩
    | cons c after =>
      rw [behindColon, hcut] at h
      obtain ⟨htext, hbefore⟩ := eq_of_dropWhile_bne hcut
      exact Or.inl ⟨_, after, htext, hbefore, h⟩

instance decidableModern (text : List Char) : Decidable (Modern text) :=
  decidable_of_iff _ modern_iff.symm

/-- **A modern text is left as it is.** -/
theorem Modern.modernizeChars_eq (h : Modern text) : modernizeChars text = text :=
  modernizeChars_of_equals (modern_iff.1 h)

/-! ### What is modernized -/

/-- The present form of a rule is modern, whatever its parameters are. -/
theorem modern_of_present? {rule : LegacyRule} (h : rule.present? = some text) :
    Modern text := by
  obtain ⟨narrowing, -, rfl⟩ := Option.map_eq_some_iff.1 h
  apply modern_iff.2
  apply mem_behindColon_append
  have hfrequency : '=' ∈ ("FREQ=" ++ rule.code.frequency.name).toList := by
    rw [String.toList_append]
    exact List.mem_append_left _ (by decide)
  exact subset_join (by simp) hfrequency

/-- A text is left as it is, or it is a rule whose words fit its code. -/
theorem modernizeChars_cases (text : List Char) : modernizeChars text = text ∨
    ∃ rule present, read? (trimChars text) = some rule ∧ rule.present? = some present ∧
      modernizeChars text = present := by
  unfold modernizeChars
  cases h : (read? (trimChars text)).bind LegacyRule.present? with
  | none => exact Or.inl rfl
  | some present =>
    obtain ⟨rule, hread, hpresent⟩ := Option.bind_eq_some_iff.1 h
    exact Or.inr ⟨rule, present, hread, hpresent, rfl⟩

/-- **What is changed is modern.** -/
theorem modernizeChars_modern (text : List Char) :
    modernizeChars text = text ∨ Modern (modernizeChars text) := by
  refine (modernizeChars_cases text).imp_right ?_
  rintro ⟨rule, present, -, hpresent, heq⟩
  exact heq ▸ modern_of_present? hpresent

/-- **What is changed are rules of vCalendar 1.0**, those whose words fit their code. -/
theorem modernizeChars_ne_iff : modernizeChars text ≠ text ↔
    ∃ rule, read? (trimChars text) = some rule ∧ rule.present?.isSome := by
  constructor
  · intro hchanged
    obtain ⟨rule, present, hread, hpresent, -⟩ :=
      (modernizeChars_cases text).resolve_left hchanged
    exact ⟨rule, hread, Option.isSome_iff_exists.2 ⟨present, hpresent⟩⟩
  · rintro ⟨rule, hread, hsome⟩ hsame
    obtain ⟨present, hpresent⟩ := Option.isSome_iff_exists.1 hsome
    -- a rule that is its own present form would be modern, and modern texts are no rules
    have htext : text = present := by
      rw [← hsame, modernizeChars, hread, Option.bind_some, hpresent, Option.getD_some]
    have hmodern : Modern text := htext ▸ modern_of_present? hpresent
    have hnone := read?_of_equals (mem_behindColon_trimChars (modern_iff.1 hmodern))
    exact absurd (hnone.symm.trans hread) (by simp)

/-! ### Texts -/

theorem modernize_eq_iff {text : String} :
    modernize text = text ↔ modernizeChars text.toList = text.toList := by
  rw [modernize, ← String.toList_inj, String.toList_ofList]

/-- Modernizing a text twice is modernizing it once. -/
theorem modernize_modernize (text : String) : modernize (modernize text) = modernize text := by
  rw [modernize_eq_iff, modernize, String.toList_ofList]
  rcases modernizeChars_modern text.toList with heq | hmodern
  · rw [heq, heq]
  · exact hmodern.modernizeChars_eq

/-- What is written of a line is left as it is. -/
theorem modernize_line (line : Line) : modernize line.text = line.text := by
  cases line with
  | rule rule => exact rule.modernize_text
  | dates list => exact Line.modernize_datesText list

/-- **Modern texts are never touched**: neither those that were modernized before, nor those
with an equals sign behind their first colon or without any colon, nor what is written of a
rule or of a list of dates. The texts that are touched are the rules of vCalendar 1.0 whose
words fit their code. -/
theorem modernize_keeps_modern :
    (∀ text, modernize (modernize text) = modernize text) ∧
      (∀ text, Modern text.toList → modernize text = text) ∧
      (∀ rule : Rule, modernize rule.text = rule.text) ∧
      (∀ list : DateList, modernize list.text = list.text) ∧
      ∀ text, modernize text ≠ text ↔
        ∃ rule, read? (trimChars text.toList) = some rule ∧ rule.present?.isSome := by
  refine ⟨modernize_modernize, ?_, ?_, ?_, ?_⟩
  · intro text h
    exact modernize_eq_iff.2 h.modernizeChars_eq
  · intro rule
    exact modernize_line (.rule rule)
  · intro list
    exact modernize_line (.dates list)
  · intro text
    rw [Ne, modernize_eq_iff]
    exact modernizeChars_ne_iff

/-- A rule whose parameter holds a colon and an equals sign, with words of vCalendar 1.0
behind it, and a rule that is one. -/
theorem modernize_keeps_modern_quoted :
    let modern := "RRULE;X-NOTE=\"a:=b\":D1 #5"
    let legacy := "RRULE;X-NOTE=a:D1 #5"
    (Modern modern.toList ∧ modernize modern = modern) ∧
      modernize legacy = "RRULE;X-NOTE=a:FREQ=DAILY;INTERVAL=1;COUNT=5" ∧
      modernize (modernize legacy) = modernize legacy := by
  intro modern legacy
  have hmodern : Modern modern.toList := by decide
  obtain ⟨htwice, hkept, -⟩ := modernize_keeps_modern
  exact ⟨⟨hmodern, hkept modern hmodern⟩, by decide +kernel, htwice legacy⟩

end Legacy

/-- A text is read as its modernized form is. -/
theorem Line.readIn_modernize (database : Database) (text : String) (zone : Zone) :
    Line.readIn database (Legacy.modernize text) zone = Line.readIn database text zone := by
  rw [Line.readIn, Legacy.modernize_modernize]
  rfl

end Recurrence
