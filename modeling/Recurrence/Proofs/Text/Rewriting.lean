/-
# Lines that survive being written

What is written of a line is the line again for every reader but one that looks for line
breaks: between quotes a value may hold them, and they are neither quoted for their own
sake nor kept from being taken for folds. So a line that was read is read again from what
is written of it exactly when none of its values holds a fold, and those that are written
without quotes hold no line break.

A value that was read holds no quote. What is written of it therefore either begins with
a quote or holds none, and the two ways to spell a value cannot be taken for each other:
a reading that gives the line back has read every value from where it was written.

Key definitions: `RawParameter.Kept`.
Key theorems: `ContentLine.unfolded_chars_iff`, `ContentLine.spellsLine_chars_iff`,
`ContentLine.survives_iff`, `ContentLine.not_survives_breaks`.
-/
import Recurrence.Proofs.Text.ContentLines
import Recurrence.Proofs.Text.Folds

namespace Recurrence

open ContentLine Folding Reading Text

/-- Whether a value of a parameter survives being written: it holds no fold, and no line
break unless it is written between quotes. -/
structure RawParameter.Kept (value : List Char) : Prop where
  unfolded : Unfolded value
  breaks : needsQuotes value = false → ∀ c ∈ value, isBreak c = false

instance RawParameter.decidableKept (value : List Char) : Decidable (Kept value) :=
  decidable_of_iff (Unfolded value ∧ (needsQuotes value = false → ∀ c ∈ value, isBreak c = false))
    ⟨fun h => ⟨h.1, h.2⟩, fun h => ⟨h.unfolded, h.breaks⟩⟩

namespace ContentLine

variable {text after after' : List Char} {value : String} {p : RawParameter}
  {ps : List RawParameter} {line : ContentLine}

/-! ### Folds in what is written -/

theorem unfolded_join {sep : Char} (hlf : sep ≠ '\n') (hsep : isContinuation sep = false)
    (items : List (List Char)) : Unfolded (join sep items) ↔ ∀ item ∈ items, Unfolded item := by
  induction items with
  | nil => exact ⟨fun _ => List.forall_mem_nil _, fun _ => .nil⟩
  | cons item items ih =>
    cases items with
    | nil => rw [join, List.forall_mem_singleton]
    | cons second rest =>
      rw [join, unfolded_append_cons hlf hsep, ih, List.forall_mem_cons (a := item)]

theorem unfolded_valueChars (value : String) :
    Unfolded (RawParameter.valueChars value) ↔ Unfolded value.toList := by
  unfold RawParameter.valueChars
  split
  · have hquote := @unfolded_append_cons '"' (by decide) (by decide)
    have hopened := hquote [] (value.toList ++ ['"'])
    have hclosed := hquote value.toList []
    rw [List.nil_append] at hopened
    rw [List.cons_append, hopened, hclosed]
    exact ⟨fun h => h.2.1, fun h => ⟨.nil, h, .nil⟩⟩
  · exact Iff.rfl

theorem unfolded_parameter (h : IsToken p.name.toList) :
    Unfolded p.chars ↔ ∀ v ∈ p.values, Unfolded v.toList := by
  have hname : Unfolded p.name.toList := unfolded_of_not_mem (h.not_mem (by decide))
  rw [RawParameter.chars, unfolded_append_cons (by decide) (by decide),
    unfolded_join (by decide) (by decide), List.forall_mem_map, and_iff_right hname]
  exact forall₂_congr fun v _ => unfolded_valueChars v

/-- **The folds of what is written of a line are those of its values.** -/
theorem unfolded_chars_iff (h : SpellsLine text line) :
    Unfolded line.chars ↔ ∀ p ∈ line.parameters, ∀ v ∈ p.values, Unfolded v.toList := by
  obtain ⟨parameters, hps, -⟩ := h.parameters
  have hname : Unfolded line.name.toList := unfolded_of_not_mem (h.name.not_mem (by decide))
  have hvalue : Unfolded line.value.toList :=
    unfolded_of_not_mem fun hlf => absurd (h.value _ hlf) (by decide)
  rw [chars, unfolded_append_cons (by decide) (by decide), unfolded_join (by decide) (by decide),
    List.forall_mem_cons, List.forall_mem_map, and_iff_left hvalue, and_iff_right hname]
  exact forall₂_congr fun p hp => unfolded_parameter (hps.unquoted p hp).name

/-! ### What is spelled and what is written -/

/-- Quotes are no line feeds. -/
theorem SpellsValue.count_eq (h : SpellsValue text value) :
    text.count '\n' = (RawParameter.valueChars value).count '\n' := by
  unfold RawParameter.valueChars
  rcases spellsValue_iff.1 h with ⟨rfl, -⟩ | ⟨rfl, -⟩ <;> split <;> simp

theorem count_join_eq {texts : List (List Char)} {values : List String}
    (h : List.Forall₂ SpellsValue texts values) : (join ',' texts).count '\n' =
      (join ',' (values.map RawParameter.valueChars)).count '\n' := by
  induction h with
  | nil => rfl
  | cons hfirst hothers ih =>
    cases hothers with
    | nil => exact hfirst.count_eq
    | cons =>
      simp only [List.map_cons, join, List.count_append, List.count_cons] at ih ⊢
      rw [hfirst.count_eq, ih]

/-- What is written of the parameters of a line holds as many line feeds as any text that
spells them. -/
theorem SpellsParameters.count_eq (h : SpellsParameters text ps) :
    text.count '\n' = (parameterChars ps).count '\n' := by
  induction h with
  | nil => rfl
  | @cons text rest p ps hp hps ih =>
    obtain ⟨texts, rfl, -, hvalues⟩ := hp.values
    rw [parameterChars_cons, RawParameter.chars]
    simp only [List.count_cons, List.count_append, count_join_eq hvalues, ih]

/-- **The two ways to spell a value are told apart by the first character**: a text that
spells a value where the value was written is what was written of it. -/
theorem SpellsValue.eq_chars (h : SpellsValue text value)
    (heq : text ++ after = RawParameter.valueChars value ++ after')
    (hafter : ∀ c ∈ after.head?, EndsValue c) : text = RawParameter.valueChars value := by
  by_cases hneeds : RawParameter.needsQuotes value.toList = true
  · have hquoted : RawParameter.valueChars value = '"' :: (value.toList ++ ['"']) := if_pos hneeds
    rcases spellsValue_iff.1 h with ⟨-, hsafe⟩ | ⟨htext, -⟩
    · -- the quote can begin neither a value without quotes nor what follows one
      rw [hquoted] at heq
      cases text with
      | nil =>
        have hends : EndsValue '"' := hafter '"' (by rw [← List.nil_append after, heq]; rfl)
        exact absurd hends (by simp [EndsValue])
      | cons c text =>
        obtain rfl := (List.cons.inj heq).1
        exact absurd (hsafe '"' List.mem_cons_self) (by decide)
    · rw [htext, hquoted]
  · have hbare : RawParameter.valueChars value = value.toList := if_neg hneeds
    rcases spellsValue_iff.1 h with ⟨htext, -⟩ | ⟨htext, hquote⟩
    · rw [htext, hbare]
    · -- the quote would be the first character of the value
      have hne := (needsQuotes_eq_false_iff.1 (Bool.eq_false_iff.2 hneeds)).1
      obtain ⟨c, rest, hvalue⟩ := List.exists_cons_of_ne_nil hne
      rw [htext, hbare, hvalue] at heq
      rw [hvalue] at hquote
      exact absurd ((List.cons.inj heq).1 ▸ List.mem_cons_self) hquote

/-- Values are spelled where they were written by what was written of them. -/
theorem eq_chars_of_join {texts : List (List Char)} {values : List String}
    (h : List.Forall₂ SpellsValue texts values)
    (heq : join ',' texts ++ after =
      join ',' (values.map RawParameter.valueChars) ++ after')
    (hafter : ∀ c ∈ after.head?, EndsValue c) : texts = values.map RawParameter.valueChars := by
  induction h with
  | nil => rfl
  | @cons text value texts values hfirst hothers ih =>
    cases hothers with
    | nil => rw [hfirst.eq_chars heq hafter, List.map_cons, List.map_nil]
    | @cons second other texts values _ _ =>
      simp only [List.map_cons, join, List.append_assoc, List.cons_append] at heq ih
      have htext := hfirst.eq_chars heq fun c hc => Or.inl (Option.some.inj hc).symm
      rw [htext] at heq ⊢
      rw [List.map_cons, List.map_cons,
        ih (List.cons.inj (List.append_cancel_left heq)).2]

/-- Each value of parameters that are spelled by what is written of them is, too. -/
theorem SpellsParameters.values_chars (h : SpellsParameters text ps)
    (heq : text = parameterChars ps) :
    ∀ p ∈ ps, ∀ v ∈ p.values, SpellsValue (RawParameter.valueChars v) v := by
  induction h with
  | nil => exact List.forall_mem_nil _
  | @cons text rest p ps hp hps ih =>
    obtain ⟨texts, rfl, -, hvalues⟩ := hp.values
    rw [parameterChars_cons, RawParameter.chars] at heq
    simp only [List.cons_append, List.append_assoc] at heq
    have hjoin := (List.cons.inj (List.append_cancel_left (List.cons.inj heq).2)).2
    have hrest : ∀ c ∈ rest.head?, EndsValue c := by
      cases hps with
      | nil => exact fun c hc => absurd hc (by simp)
      | cons => exact fun c hc => Or.inr (Or.inl (Option.some.inj hc).symm)
    have htexts := eq_chars_of_join hvalues hjoin hrest
    rw [htexts] at hjoin hvalues
    rw [List.forall₂_map_left_iff, List.forall₂_same] at hvalues
    exact List.forall_mem_cons.2 ⟨hvalues, ih (List.append_cancel_left hjoin)⟩

/-- **When what is written of a line spells it**: when each of its values is spelled by
what is written of it. -/
theorem spellsLine_chars_iff (h : SpellsLine text line) : SpellsLine line.chars line ↔
    ∀ p ∈ line.parameters, ∀ v ∈ p.values, SpellsValue (RawParameter.valueChars v) v := by
  obtain ⟨parameters, hps, -⟩ := h.parameters
  constructor
  · intro hchars
    obtain ⟨written, hwritten, heq⟩ := hchars.parameters
    rw [chars_eq] at heq
    have hsame := List.append_cancel_right (List.append_cancel_left heq)
    exact hwritten.values_chars hsame.symm
  · intro hvalues
    exact ⟨h.name, ⟨_, spells_parameterChars hps.unquoted hvalues, chars_eq line⟩, h.value⟩

/-! ### Reading what was written -/

/-- Nothing is lost from what was written of a line if the line is read from it. -/
theorem unfolded_of_read_text (h : read line.text = .ok line) : Unfolded line.chars := by
  rw [read_eq_ok_iff, ContentLine.text, String.toList_ofList] at h
  obtain ⟨parameters, hps, hstrip⟩ := h.parameters
  -- what is left spells the same values, so no line feed was taken off with a fold
  apply unfolded_of_count
  calc (strip line.chars).count '\n'
      = (line.name.toList ++ (parameters ++ ':' :: line.value.toList)).count '\n' := by
        rw [hstrip]
    _ = (line.name.toList ++ (parameterChars line.parameters ++
          ':' :: line.value.toList)).count '\n' := by
        simp only [List.count_append, hps.count_eq]
    _ = line.chars.count '\n' := by rw [chars_eq]

/-- **When a line survives being written.** A line that was read is read again from what
is written of it exactly when each value of its parameters holds no fold, and no line break
either if it is written without quotes. -/
theorem survives_iff {text : String} (h : read text = .ok line) : read line.text = .ok line ↔
    ∀ p ∈ line.parameters, ∀ v ∈ p.values, RawParameter.Kept v.toList := by
  have hspells := read_eq_ok_iff.1 h
  have hquote : ∀ p ∈ line.parameters, ∀ v ∈ p.values, '"' ∉ v.toList := fun p hp =>
    (unquoted_of_read h p hp).quote
  constructor
  · intro hread
    have hunfolded := unfolded_of_read_text hread
    rw [read_eq_ok_iff, ContentLine.text, String.toList_ofList, hunfolded.strip_eq_self] at hread
    intro p hp v hv
    have hvalue := (spellsLine_chars_iff hspells).1 hread p hp v hv
    exact ⟨(unfolded_chars_iff hspells).1 hunfolded p hp v hv, (spellsValue_chars_iff.1 hvalue).2⟩
  · intro hkept
    have hunfolded : Unfolded line.chars :=
      (unfolded_chars_iff hspells).2 fun p hp v hv => (hkept p hp v hv).unfolded
    rw [read_eq_ok_iff, ContentLine.text, String.toList_ofList, hunfolded.strip_eq_self,
      spellsLine_chars_iff hspells]
    exact fun p hp v hv =>
      spellsValue_chars_iff.2 ⟨hquote p hp v hv, (hkept p hp v hv).breaks⟩

/-- A carriage return in a value that is quoted for its semicolon, and no value at all. -/
theorem survives_iff_quoted :
    let text := "RDATE;X-NOTE=\"a;\rb\",\"\":20060101"
    let line : ContentLine := ⟨"RDATE", [⟨"X-NOTE", ["a;\rb", ""]⟩], "20060101"⟩
    read text = .ok line ∧ (∀ p ∈ line.parameters, ∀ v ∈ p.values, RawParameter.Kept v.toList) ∧
      read line.text = .ok line := by
  intro text line
  have hread : read text = .ok line := eq_ok_of_toOption (by decide +kernel)
  have hkept : ∀ p ∈ line.parameters, ∀ v ∈ p.values, RawParameter.Kept v.toList := by decide
  exact ⟨hread, hkept, (survives_iff hread).2 hkept⟩

/-- **Line breaks between quotes are lost.** A carriage return is written without its
quotes, and what is written is no line. What one of two folds leaves behind is written as a
fold, and taken off. -/
theorem not_survives_breaks :
    let broken : ContentLine := ⟨"RRULE", [⟨"X-NOTE", ["a\rb"]⟩], "FREQ=DAILY"⟩
    let folded : ContentLine := ⟨"RRULE", [⟨"X-NOTE", ["a\n b,c"]⟩], "FREQ=DAILY"⟩
    (read "RRULE;X-NOTE=\"a\rb\":FREQ=DAILY" = .ok broken ∧
        broken.text = "RRULE;X-NOTE=a\rb:FREQ=DAILY" ∧ ∀ line, read broken.text ≠ .ok line) ∧
      read "RRULE;X-NOTE=\"a\n\n  b,c\":FREQ=DAILY" = .ok folded ∧
        read folded.text = .ok ⟨"RRULE", [⟨"X-NOTE", ["ab,c"]⟩], "FREQ=DAILY"⟩ := by
  intro broken folded
  have hnone : (read broken.text).toOption = none := by decide +kernel
  refine ⟨⟨eq_ok_of_toOption (by decide +kernel), by decide +kernel, fun line hline => ?_⟩,
    eq_ok_of_toOption (by decide +kernel), eq_ok_of_toOption (by decide +kernel)⟩
  rw [hline] at hnone
  exact absurd hnone (by simp [Except.toOption])

end ContentLine

end Recurrence
