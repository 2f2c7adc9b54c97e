/-
# Fields and tokens

A text is cut at the first separator that it holds, and what is joined with a separator is
cut into the same fields again, as long as no field holds the separator. Most fields are
tokens, which consist of letters, digits and hyphens: they hold no separator and no blank.

Key definitions: `Text.IsToken`.
Key theorems: `Text.eq_of_dropWhile_bne`, `Text.fields_join`, `Text.mem_join`,
`Text.IsToken.trim`.
-/
import Recurrence.ContentLine.Read
import Recurrence.Proofs.Text.Blanks
import Recurrence.Proofs.Text.Decimals

namespace Recurrence.Text

open ContentLine

/-! ### Texts with a separator -/

theorem takeWhile_bne_append {sep : Char} {before : List Char} (h : sep ∉ before)
    (after : List Char) : (before ++ sep :: after).takeWhile (· != sep) = before := by
  have hbefore : ∀ c ∈ before, (c != sep) = true := fun c hc =>
    bne_iff_ne.2 fun heq => h (heq ▸ hc)
  rw [List.takeWhile_append_of_pos hbefore, List.takeWhile_cons_of_neg (by simp), List.append_nil]

theorem dropWhile_bne_append {sep : Char} {before : List Char} (h : sep ∉ before)
    (after : List Char) : (before ++ sep :: after).dropWhile (· != sep) = sep :: after := by
  have hbefore : ∀ c ∈ before, (c != sep) = true := fun c hc =>
    bne_iff_ne.2 fun heq => h (heq ▸ hc)
  rw [List.dropWhile_append_of_pos hbefore, List.dropWhile_cons_of_neg (by simp)]

theorem dropWhile_bne_eq_nil_iff {sep : Char} {text : List Char} :
    text.dropWhile (· != sep) = [] ↔ sep ∉ text := by
  rw [List.dropWhile_eq_nil_iff]
  constructor
  · exact fun h hsep => absurd (h sep hsep) (by simp)
  · exact fun h c hc => bne_iff_ne.2 fun heq => h (heq ▸ hc)

/-- **A text is cut at its first separator.** -/
theorem eq_of_dropWhile_bne {sep c : Char} {text after : List Char}
    (h : text.dropWhile (· != sep) = c :: after) :
    text = text.takeWhile (· != sep) ++ sep :: after ∧ sep ∉ text.takeWhile (· != sep) := by
  have hbefore : sep ∉ text.takeWhile (· != sep) := fun hsep =>
    absurd (List.mem_takeWhile_imp hsep) (by simp)
  have hc : c = sep := by
    have hhead := List.head?_dropWhile_not (· != sep) text
    rw [h] at hhead
    simpa using hhead
  have hcut : text.takeWhile (· != sep) ++ text.dropWhile (· != sep) = text :=
    List.takeWhile_append_dropWhile
  rw [h, hc] at hcut
  exact ⟨hcut.symm, hbefore⟩

/-! ### Fields that were joined -/

theorem fields_append {sep : Char} {item : List Char} (h : sep ∉ item) (text : List Char) :
    fields sep (item ++ sep :: text) = item :: fields sep text := by
  induction item with
  | nil => simp [fields]
  | cons c item ih =>
    rw [List.mem_cons, not_or] at h
    simp only [List.cons_append, fields, if_neg (Ne.symm h.1), ih h.2]

theorem fields_of_not_mem {sep : Char} {item : List Char} (h : sep ∉ item) :
    fields sep item = [item] := by
  induction item with
  | nil => rfl
  | cons c item ih =>
    rw [List.mem_cons, not_or] at h
    simp only [fields, if_neg (Ne.symm h.1), ih h.2]

/-- **What is joined is cut into the same fields again.** -/
theorem fields_join {sep : Char} {items : List (List Char)} (hne : items ≠ [])
    (h : ∀ item ∈ items, sep ∉ item) : fields sep (join sep items) = items := by
  induction items with
  | nil => exact absurd rfl hne
  | cons item items ih =>
    rw [List.forall_mem_cons] at h
    cases items with
    | nil => exact fields_of_not_mem h.1
    | cons second rest =>
      rw [join, fields_append h.1, ih (List.cons_ne_nil _ _) h.2]

theorem mem_join {sep c : Char} {items : List (List Char)} (h : c ∈ join sep items) :
    c = sep ∨ ∃ item ∈ items, c ∈ item := by
  induction items with
  | nil => exact absurd h List.not_mem_nil
  | cons item items ih =>
    cases items with
    | nil => exact Or.inr ⟨item, List.mem_cons_self, h⟩
    | cons second rest =>
      rw [join, List.mem_append, List.mem_cons] at h
      rcases h with h | h | h
      · exact Or.inr ⟨item, List.mem_cons_self, h⟩
      · exact Or.inl h
      · rcases ih h with hsep | ⟨item, hitem, hc⟩
        · exact Or.inl hsep
        · exact Or.inr ⟨item, List.mem_cons_of_mem _ hitem, hc⟩

theorem subset_join {sep : Char} {items : List (List Char)} {item : List Char}
    (h : item ∈ items) : item ⊆ join sep items := by
  intro c hc
  induction items with
  | nil => exact absurd h List.not_mem_nil
  | cons first items ih =>
    cases items with
    | nil =>
      rw [List.mem_singleton.1 h] at hc
      exact hc
    | cons second rest =>
      rw [join, List.mem_append, List.mem_cons]
      rcases List.mem_cons.1 h with rfl | h
      · exact Or.inl hc
      · exact Or.inr (Or.inr (ih h))

/-! ### Tokens -/

/-- The characters of a text are tested one after the other. -/
instance decidableForallMem (text : List Char) (p : Char → Prop) [DecidablePred p] :
    Decidable (∀ c ∈ text, p c) :=
  decidable_of_iff (text.all (p ·) = true) (by simp)

/-- Whether a text consists of letters, digits and hyphens. -/
structure IsToken (text : List Char) : Prop where
  ne_nil : text ≠ []
  chars : ∀ c ∈ text, isNameChar c = true

instance decidableIsToken (text : List Char) : Decidable (IsToken text) :=
  decidable_of_iff (text ≠ [] ∧ ∀ c ∈ text, isNameChar c = true)
    ⟨fun h => ⟨h.1, h.2⟩, fun h => ⟨h.ne_nil, h.chars⟩⟩

theorem isUpper_iff {c : Char} : c.isUpper = true ↔ 65 ≤ c.toNat ∧ c.toNat ≤ 90 :=
  decide_eq_true_iff

theorem isLower_iff {c : Char} : c.isLower = true ↔ 97 ≤ c.toNat ∧ c.toNat ≤ 122 :=
  (Bool.and_eq_true_iff).trans (and_congr decide_eq_true_iff decide_eq_true_iff)

theorem isDigit_iff {c : Char} : c.isDigit = true ↔ 48 ≤ c.toNat ∧ c.toNat ≤ 57 :=
  (Bool.and_eq_true_iff).trans (and_congr decide_eq_true_iff decide_eq_true_iff)

/-- The characters of names, by their codes. -/
theorem isNameChar_iff {c : Char} : isNameChar c = true ↔
    (48 ≤ c.toNat ∧ c.toNat ≤ 57) ∨ (65 ≤ c.toNat ∧ c.toNat ≤ 90) ∨
      (97 ≤ c.toNat ∧ c.toNat ≤ 122) ∨ c.toNat = 45 := by
  have hhyphen : c = '-' ↔ c.toNat = 45 :=
    ⟨fun h => h ▸ rfl, fun h => Char.ext (UInt32.toNat_inj.1 h)⟩
  rw [isNameChar, Bool.or_eq_true, beq_iff_eq, hhyphen]
  show ((c.isUpper || c.isLower) || c.isDigit) = true ∨ _ ↔ _
  rw [Bool.or_eq_true, Bool.or_eq_true, isUpper_iff, isLower_iff, isDigit_iff]
  omega

theorem isNameChar_toUpper {c : Char} (h : isNameChar c = true) :
    isNameChar c.toUpper = true := by
  rw [isNameChar_iff] at h ⊢
  unfold Char.toUpper
  split
  · rename_i hlower
    simp only [UInt32.le_iff_toNat_le, Char.toNat, UInt32.toNat_add] at hlower h ⊢
    simp at hlower h ⊢
    omega
  · exact h

/-- The characters that are capitals of themselves, among others. -/
theorem toUpper_eq_self {c : Char} (h : c.isUpper = true ∨ c.isDigit = true ∨ c = '-') :
    c.toUpper = c := by
  refine dif_neg fun hlower => ?_
  have hlow : 97 ≤ c.toNat := hlower.1
  rw [isUpper_iff, isDigit_iff] at h
  rcases h with h | h | rfl
  · omega
  · omega
  · exact absurd hlow (by decide)

theorem isBlank_of_isNameChar {c : Char} (h : isNameChar c = true) : isBlank c = false := by
  rw [isNameChar_iff] at h
  simp only [isBlank, Bool.or_eq_false_iff, Bool.and_eq_false_iff, decide_eq_false_iff_not,
    beq_eq_false_iff_ne]
  omega

namespace IsToken

variable {text text' : List Char}

theorem not_mem (h : IsToken text) {sep : Char} (hsep : isNameChar sep = false) : sep ∉ text :=
  fun hmem => absurd (h.chars sep hmem) (by simp [hsep])

/-- A token is not trimmed. -/
theorem trim (h : IsToken text) : trimChars text = text :=
  trimChars_eq_self fun c hc => isBlank_of_isNameChar (h.chars c hc)

theorem append (h : IsToken text) (h' : IsToken text') : IsToken (text ++ text') :=
  ⟨List.append_ne_nil_of_left_ne_nil h.ne_nil _, fun c hc =>
    (List.mem_append.1 hc).elim (h.chars c) (h'.chars c)⟩

theorem padded (places n : Nat) : IsToken (Decimal.padded places n) :=
  ⟨Decimal.padded_ne_nil places n, fun _ hc =>
    isNameChar_iff.2 (Or.inl (isDigit_iff.1 (Decimal.isDigit_of_mem_padded hc)))⟩

/-- The capitals of a token are a token. -/
theorem upper (h : IsToken text) : IsToken (upperChars text) :=
  ⟨by simpa [upperChars] using h.ne_nil,
    List.forall_mem_map.2 fun c hc => isNameChar_toUpper (h.chars c hc)⟩

theorem integer (n : Int) : IsToken (Decimal.integer n).toList := by
  rw [Decimal.integer, String.toList_ofList]
  split
  · exact (show IsToken ['-'] by decide).append (padded 0 n.natAbs)
  · exact padded 0 n.natAbs

end IsToken

end Recurrence.Text
