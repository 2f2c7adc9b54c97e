/-
# Capitals

The letters of ASCII have capitals, all other characters are their own. Capitals are
capitals of themselves, and no character becomes a digit, a blank or another mark.

Key theorems: `Text.toUpper_toUpper`, `Text.isDigit_toUpper`, `Text.upperChars_of_digits`.
-/
import Recurrence.Proofs.Text.Fields

namespace Recurrence.Text

open ContentLine

/-- A character is its own capital, or a small letter with a capital. -/
theorem toUpper_cases (c : Char) : (c.toUpper = c ∧ ¬ (97 ≤ c.toNat ∧ c.toNat ≤ 122)) ∨
    97 ≤ c.toNat ∧ c.toNat ≤ 122 ∧ c.toUpper.toNat + 32 = c.toNat := by
  unfold Char.toUpper
  split
  · rename_i h
    refine Or.inr ?_
    simp only [UInt32.le_iff_toNat_le, Char.toNat, UInt32.toNat_add] at h ⊢
    simp at h ⊢
    omega
  · rename_i h
    exact Or.inl ⟨rfl, fun hlower => h hlower⟩

theorem toUpper_toUpper (c : Char) : c.toUpper.toUpper = c.toUpper := by
  rcases toUpper_cases c.toUpper with ⟨h', -⟩ | ⟨hlow', hhigh', -⟩
  · exact h'
  · rcases toUpper_cases c with ⟨h, hsmall⟩ | ⟨hlow, hhigh, h⟩
    · rw [h] at hlow' hhigh'
      exact absurd ⟨hlow', hhigh'⟩ hsmall
    · omega

/-- Only a digit has a digit for its capital. -/
theorem isDigit_toUpper (c : Char) : c.toUpper.isDigit = c.isDigit := by
  rw [Bool.eq_iff_iff, isDigit_iff, isDigit_iff]
  rcases toUpper_cases c with ⟨h, -⟩ | ⟨hlow, hhigh, h⟩
  · rw [h]
  · omega

/-- Only a character of names has such a character for its capital. -/
theorem isNameChar_of_toUpper {c : Char} (h : isNameChar c.toUpper = true) :
    isNameChar c = true := by
  rw [isNameChar_iff] at h ⊢
  rcases toUpper_cases c with ⟨hself, -⟩ | ⟨hlow, hhigh, -⟩
  · rwa [hself] at h
  · omega

theorem toUpper_lt_iff (c : Char) : c.toUpper.toNat < 128 ↔ c.toNat < 128 := by
  rcases toUpper_cases c with ⟨h, -⟩ | ⟨hlow, hhigh, h⟩
  · rw [h]
  · omega

theorem upperChars_upperChars (text : List Char) :
    upperChars (upperChars text) = upperChars text := by
  simp only [upperChars, List.map_map]
  exact List.map_congr_left fun c _ => toUpper_toUpper c

theorem upper_upper (text : String) : upper (upper text) = upper text := by
  rw [upper, upper, String.toList_ofList, upperChars_upperChars]

theorem upperChars_append (text text' : List Char) :
    upperChars (text ++ text') = upperChars text ++ upperChars text' :=
  List.map_append

/-- Digits are their own capitals. -/
theorem upperChars_of_digits {text : List Char} (h : ∀ c ∈ text, c.isDigit = true) :
    upperChars text = text :=
  (List.map_congr_left fun c hc => toUpper_eq_self (Or.inr (Or.inl (h c hc)))).trans
    (List.map_id _)

/-- A text is a token if its capitals are. -/
theorem IsToken.of_upper {text : List Char} (h : IsToken (upperChars text)) : IsToken text := by
  refine ⟨?_, fun c hc => isNameChar_of_toUpper (h.chars _ (List.mem_map_of_mem hc))⟩
  rintro rfl
  exact h.ne_nil rfl

end Recurrence.Text
