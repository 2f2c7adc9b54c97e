/-
# Blanks around a text

A text is trimmed to what begins and ends with no blank, and what is taken off is blank.

Key theorems: `Text.trimChars_between`, `Text.exists_trimChars`, `Text.trimChars_eq_nil_iff`,
`Text.trimChars_eq_self`.
-/
import Mathlib.Data.List.TakeWhile
import Recurrence.Text.Blank

namespace Recurrence.Text

variable {text before after : List Char}

/-! ### Blanks that are trimmed off -/

theorem trimStart_append (h : ∀ c ∈ before, isBlank c = true) (text : List Char) :
    trimStart (before ++ text) = trimStart text :=
  List.dropWhile_append_of_pos h

/-- Blanks at the end of a text do not count. -/
theorem trimChars_append {blanks : List Char} (h : ∀ c ∈ blanks, isBlank c = true)
    (text : List Char) : trimChars (text ++ blanks) = trimChars text := by
  unfold trimChars trimStart
  rw [List.dropWhile_append]
  by_cases hall : (text.dropWhile isBlank).isEmpty = true
  · rw [if_pos hall, List.isEmpty_iff.1 hall, List.dropWhile_eq_nil_iff.2 h]
  · rw [if_neg hall, List.reverse_append, List.dropWhile_append_of_pos]
    exact fun c hc => h c (List.mem_reverse.1 hc)

theorem trimChars_eq_nil_iff : trimChars text = [] ↔ ∀ c ∈ text, isBlank c = true := by
  constructor
  · intro h
    unfold trimChars trimStart at h
    rw [List.reverse_eq_nil_iff, List.dropWhile_eq_nil_iff] at h
    rw [← List.dropWhile_eq_nil_iff]
    cases hrest : text.dropWhile isBlank with
    | nil => rfl
    | cons c rest =>
      -- what is left begins with a character that is no blank
      have hc := List.head_dropWhile_not isBlank (by rw [hrest]; exact List.cons_ne_nil c rest)
      simp only [hrest, List.head_cons] at hc
      rw [hrest] at h
      exact absurd (h c (by simp)) (by simp [hc])
  · intro h
    rw [← List.nil_append text, trimChars_append h]
    rfl

/-! ### What is left -/

/-- What begins with no blank has none to lose. -/
theorem trimStart_eq_self (h : ∀ c ∈ text.head?, isBlank c = false) : trimStart text = text := by
  cases text with
  | nil => rfl
  | cons c rest =>
    rw [trimStart, List.dropWhile_cons_of_neg]
    simp [h c rfl]

/-- A text is trimmed to what begins and ends with no blank. -/
theorem trimChars_between (hbefore : ∀ c ∈ before, isBlank c = true)
    (hafter : ∀ c ∈ after, isBlank c = true) (hhead : ∀ c ∈ text.head?, isBlank c = false)
    (hlast : ∀ c ∈ text.getLast?, isBlank c = false) :
    trimChars (before ++ (text ++ after)) = text := by
  have hreverse : ∀ c ∈ text.reverse.head?, isBlank c = false := by
    rwa [List.head?_reverse]
  rw [← List.append_assoc, trimChars_append hafter, trimChars, trimStart_append hbefore,
    trimStart_eq_self hhead, trimStart_eq_self hreverse, List.reverse_reverse]

/-- A text that begins and ends with no blank is not trimmed. -/
theorem trimChars_eq_self_of_ends (hhead : ∀ c ∈ text.head?, isBlank c = false)
    (hlast : ∀ c ∈ text.getLast?, isBlank c = false) : trimChars text = text := by
  have h := @trimChars_between text [] [] (by simp) (by simp) hhead hlast
  rwa [List.nil_append, List.append_nil] at h

/-- A text without blanks is not trimmed. -/
theorem trimChars_eq_self (h : ∀ c ∈ text, isBlank c = false) : trimChars text = text := by
  apply trimChars_eq_self_of_ends
  · exact fun c hc => h c (List.mem_of_mem_head? hc)
  · exact fun c hc => h c (List.mem_of_getLast? hc)

/-- Only blanks are trimmed off. -/
theorem exists_trimStart (text : List Char) : ∃ blanks, text = blanks ++ trimStart text ∧
    ∀ c ∈ blanks, isBlank c = true :=
  ⟨text.takeWhile isBlank, List.takeWhile_append_dropWhile.symm, fun _ => List.mem_takeWhile_imp⟩

theorem exists_trimChars (text : List Char) : ∃ before after,
    text = before ++ (trimChars text ++ after) ∧ (∀ c ∈ before, isBlank c = true) ∧
      ∀ c ∈ after, isBlank c = true := by
  obtain ⟨before, htext, hbefore⟩ := exists_trimStart text
  obtain ⟨after, hrest, hafter⟩ := exists_trimStart (trimStart text).reverse
  refine ⟨before, after.reverse, ?_, hbefore, fun c hc => hafter c (List.mem_reverse.1 hc)⟩
  rw [trimChars, ← List.reverse_append, ← hrest, List.reverse_reverse]
  exact htext

theorem mem_of_mem_trimChars {c : Char} (h : c ∈ trimChars text) : c ∈ text := by
  obtain ⟨before, after, htext, -⟩ := exists_trimChars text
  rw [htext]
  exact List.mem_append_right _ (List.mem_append_left _ h)

end Recurrence.Text
