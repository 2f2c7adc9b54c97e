/-
# What is not modernized

No word of a rule of vCalendar 1.0 holds an equals sign, neither one that narrows
the rule nor a duration. So a text with an equals sign behind its first colon is
left as it is, and so is one that begins with another name than that of a rule.

Key definitions: `Legacy.behindColon`.
Key theorems: `Legacy.modernizeChars_of_equals`, `Legacy.modernizeChars_of_name`.
-/
import Recurrence.Legacy
import Recurrence.Proofs.Text.Blanks

namespace Recurrence

open Text

/-! ### Words and runs -/

namespace Text

/-- A character that is no blank is in a word. -/
theorem exists_mem_words {text : List Char} {c : Char} (hc : c ∈ text)
    (hblank : isBlank c = false) : ∃ word ∈ words text, c ∈ word := by
  fun_induction words text with
  | case1 text hcut =>
    obtain ⟨blanks, htext, hblanks⟩ := exists_trimStart text
    rw [hcut, List.append_nil] at htext
    rw [hblanks c (htext ▸ hc)] at hblank
    exact absurd hblank (by simp)
  | case2 text a rest hcut ih =>
    obtain ⟨blanks, htext, hblanks⟩ := exists_trimStart text
    rw [hcut] at htext
    rw [htext, List.mem_append, List.mem_cons] at hc
    rcases hc with hc | rfl | hc
    · rw [hblanks c hc] at hblank
      exact absurd hblank (by simp)
    · exact ⟨_, List.mem_cons_self, List.mem_cons_self⟩
    · rw [← firstWord_append rest, List.mem_append] at hc
      rcases hc with hc | hc
      · exact ⟨_, List.mem_cons_self, List.mem_cons_of_mem _ hc⟩
      · obtain ⟨word, hword, hmem⟩ := ih hc
        exact ⟨word, List.mem_cons_of_mem _ hword, hmem⟩

/-- A character of another kind is behind a run. -/
theorem mem_dropWhile {p : Char → Bool} {text : List Char} {c : Char} (hc : c ∈ text)
    (hp : p c = false) : c ∈ text.dropWhile p := by
  rw [← List.takeWhile_append_dropWhile (p := p) (l := text), List.mem_append] at hc
  refine hc.resolve_left fun h => ?_
  rw [List.mem_takeWhile_imp h] at hp
  exact absurd hp (by simp)

end Text

namespace Legacy

/-! ### Words with an equals sign -/

theorem not_isDigits {text : List Char} (h : '=' ∈ text) (least most : Nat) :
    isDigits least most text = false := by
  rw [isDigits, Bool.and_eq_false_iff]
  exact Or.inr (List.all_eq_false.2 ⟨'=', h, by decide⟩)

theorem mem_dropSign {word : List Char} (h : '=' ∈ word) : '=' ∈ dropSign word := by
  have hreverse : '=' ∈ word.reverse := List.mem_reverse.2 h
  unfold dropSign
  split
  · rename_i heq
    rw [heq] at hreverse
    exact List.mem_reverse.2 ((List.mem_cons.1 hreverse).resolve_left (by decide))
  · rename_i heq
    rw [heq] at hreverse
    exact List.mem_reverse.2 ((List.mem_cons.1 hreverse).resolve_left (by decide))
  · exact h

theorem not_isNarrowing {word : List Char} (h : '=' ∈ word) : isNarrowing word = false := by
  have hfold : '=' ∈ fold word := List.mem_map.2 ⟨'=', h, by decide⟩
  have hletters : ∀ letters ∈ letterWords, '=' ∉ letters := by decide
  rw [isNarrowing, not_isDigits (mem_dropSign h), Bool.false_or, List.contains_eq_any_beq,
    List.any_eq_false]
  intro letters hmem heq
  exact hletters letters hmem (eq_of_beq heq ▸ hfold)

theorem not_isDuration {word : List Char} (h : '=' ∈ word) : isDuration word = false := by
  unfold isDuration
  split
  · rename_i digits
    have hdigits : '=' ∈ digits := (List.mem_cons.1 h).resolve_left (by decide)
    rw [Bool.and_eq_false_iff]
    exact Or.inr (List.all_eq_false.2 ⟨'=', hdigits, by decide⟩)
  · rw [← List.take_append_drop 8 word, List.mem_append] at h
    rcases h with h | h
    · rw [not_isDigits h, Bool.false_and]
    · rw [Bool.and_eq_false_iff]
      refine Or.inr ?_
      cases hdrop : word.drop 8 with
      | nil =>
        rw [hdrop] at h
        exact absurd h List.not_mem_nil
      | cons t time =>
        rw [hdrop] at h
        simp only
        rcases List.mem_cons.1 h with rfl | h
        · rfl
        · rw [← List.take_append_drop 6 time, List.mem_append] at h
          rcases h with h | h
          · rw [not_isDigits h, Bool.and_false, Bool.false_and]
          · rw [Bool.and_eq_false_iff]
            refine Or.inr ?_
            cases hrest : time.drop 6 with
            | nil =>
              rw [hrest] at h
              exact absurd h List.not_mem_nil
            | cons z rest =>
              rw [hrest] at h
              cases rest with
              | nil =>
                obtain rfl := List.mem_singleton.1 h
                rfl
              | cons => rfl

theorem splitWords_eq_none {words : List (List Char)} {word : List Char} (hword : word ∈ words)
    (h : '=' ∈ word) : splitWords words = none := by
  have hnarrowing := not_isNarrowing h
  have hreverse : word ∈ words.reverse := List.mem_reverse.2 hword
  unfold splitWords
  split
  · rename_i last before heq
    rw [heq] at hreverse
    rw [if_neg, if_neg]
    · intro hall
      rw [List.all_eq_true.1 hall word hword] at hnarrowing
      exact absurd hnarrowing (by simp)
    · rintro ⟨hlast, hall⟩
      rcases List.mem_cons.1 hreverse with rfl | hbefore
      · rw [not_isDuration h] at hlast
        exact absurd hlast (by simp)
      · rw [List.all_eq_true.1 hall word hbefore] at hnarrowing
        exact absurd hnarrowing (by simp)
  · rename_i heq
    rw [heq] at hreverse
    exact absurd hreverse List.not_mem_nil

/-! ### Rules with an equals sign -/

/-- What stands behind the first colon of a text, or the text if there is none. -/
def behindColon (text : List Char) : List Char :=
  match text.dropWhile (· != ':') with
  | _ :: rest => rest
  | [] => text

/-- A name in front of a text is passed over on the way to the first colon. -/
theorem behindColon_drop {text : List Char} {n : Nat} (h : ':' ∉ text.take n) {rest : List Char}
    {c : Char} (hdrop : (text.drop n).dropWhile (· != ':') = c :: rest) :
    behindColon text = rest := by
  have hpass : text.dropWhile (· != ':') = (text.drop n).dropWhile (· != ':') := by
    conv => lhs; rw [← List.take_append_drop n text]
    exact List.dropWhile_append_of_pos fun c hc => bne_iff_ne.2 fun heq => h (heq ▸ hc)
  rw [behindColon, hpass, hdrop]

/-- The rule of a text is the text, or what stands behind its first colon. -/
theorem splitName_rule (text : List Char) :
    (splitName text).2.2 = text ∨ (splitName text).2.2 = behindColon text := by
  unfold splitName
  split
  · exact Or.inl rfl
  · rename_i name hfind
    have hname : ':' ∉ text.take name.length := by
      intro hmem
      have hcolons : ∀ name ∈ ruleNames, ':' ∉ name := by decide
      have hprefix : name.isPrefixOf (upperChars text) = true := by
        simpa using List.find?_some hfind
      obtain ⟨rest, hrest⟩ := List.isPrefixOf_iff_prefix.1 hprefix
      have hupper : (text.take name.length).map Char.toUpper = name := by
        rw [List.map_take, show text.map Char.toUpper = name ++ rest from hrest.symm,
          List.take_left]
      exact hcolons name (List.mem_of_find?_eq_some hfind)
        (hupper ▸ List.mem_map.2 ⟨':', hmem, by decide⟩)
    split
    · rename_i rule heq
      refine Or.inr (behindColon_drop hname (c := ':') ?_).symm
      rw [heq]
      rfl
    · rename_i rest heq
      split
      · rename_i c rule hcut
        refine Or.inr (behindColon_drop hname (c := c) ?_).symm
        rw [heq]
        exact hcut
      · exact Or.inl rfl
    · exact Or.inl rfl

theorem mem_of_mem_behindColon {text : List Char} {c : Char} (h : c ∈ behindColon text) :
    c ∈ text := by
  unfold behindColon at h
  split at h
  · rename_i heq
    exact (List.dropWhile_suffix _).subset (heq ▸ List.mem_cons_of_mem _ h)
  · exact h

/-- What stands behind any colon stands behind the first one. -/
theorem mem_behindColon_append {before after : List Char} {c : Char} (h : c ∈ after) :
    c ∈ behindColon (before ++ ':' :: after) := by
  rw [behindColon, List.dropWhile_append]
  cases hbefore : before.dropWhile (· != ':') with
  | nil => exact h
  | cons d rest => exact List.mem_append_right _ (List.mem_cons_of_mem _ h)

/-- A letter that is taken off is no equals sign. -/
theorem mem_behind_letter {c d : Char} {text : List Char} (hc : c.toUpper = d) (hd : d ≠ '=')
    (h : '=' ∈ c :: text) : '=' ∈ text := by
  refine (List.mem_cons.1 h).resolve_left ?_
  rintro rfl
  exact hd hc.symm

theorem mem_behind_letters {c d d' : Char} {text : List Char} (hc : c.toUpper = d) (hd : d ≠ '=')
    (hc' : text.head?.map Char.toUpper = some d') (hd' : d' ≠ '=') (h : '=' ∈ c :: text) :
    '=' ∈ text.drop 1 := by
  have htext := mem_behind_letter hc hd h
  cases text with
  | nil => exact htext
  | cons a text => exact mem_behind_letter (Option.some.inj hc') hd' htext

/-- A code takes no equals sign off. -/
theorem mem_of_readCode {text rest : List Char} {code : Code} (h : '=' ∈ text)
    (hread : Code.read? text = some (code, rest)) : '=' ∈ rest := by
  unfold Code.read? at hread
  split at hread
  · exact absurd hread (by simp)
  · split at hread <;> simp only [Option.some.injEq, Prod.mk.injEq, reduceCtorEq] at hread
    case h_1 heq heq' => exact hread.2 ▸ mem_behind_letters heq (by decide) heq' (by decide) h
    case h_2 heq heq' => exact hread.2 ▸ mem_behind_letters heq (by decide) heq' (by decide) h
    case h_3 heq heq' => exact hread.2 ▸ mem_behind_letters heq (by decide) heq' (by decide) h
    case h_4 heq heq' => exact hread.2 ▸ mem_behind_letters heq (by decide) heq' (by decide) h
    case h_5 heq => exact hread.2 ▸ mem_behind_letter heq (by decide) h
    case h_6 heq => exact hread.2 ▸ mem_behind_letter heq (by decide) h

/-- **A text with an equals sign behind its first colon is no rule of vCalendar.** -/
theorem read?_of_equals {text : List Char} (h : '=' ∈ behindColon text) : read? text = none := by
  have hrule : '=' ∈ (splitName text).2.2 := by
    rcases splitName_rule text with heq | heq <;> rw [heq]
    · exact mem_of_mem_behindColon h
    · exact h
  unfold read?
  generalize splitName text = s at hrule
  obtain ⟨name, parameters, rule⟩ := s
  cases hcode : Code.read? (trimStart rule) with
  | none => simp only [hcode]; rfl
  | some p =>
    obtain ⟨code, rest⟩ := p
    have hrest := mem_of_readCode (mem_dropWhile hrule (by decide)) hcode
    obtain ⟨word, hword, hmem⟩ :=
      exists_mem_words (mem_dropWhile (p := isDecimalDigit) hrest (by decide)) (by decide)
    simp only [hcode, Option.bind_eq_bind, Option.bind_some, splitWords_eq_none hword hmem,
      Option.bind_none]
    split
    · rfl
    · split <;> rfl

/-- An equals sign behind the first colon is still there when the text is trimmed. -/
theorem mem_behindColon_trimChars {text : List Char} (h : '=' ∈ behindColon text) :
    '=' ∈ behindColon (trimChars text) := by
  obtain ⟨before, after, htext, hbefore, hafter⟩ := exists_trimChars text
  have hkept : ∀ blanks : List Char, (∀ c ∈ blanks, isBlank c = true) → '=' ∉ blanks :=
    fun blanks hb hmem => absurd (hb '=' hmem) (by decide)
  have hpass : ∀ blanks : List Char, (∀ c ∈ blanks, isBlank c = true) → ∀ rest : List Char,
      (blanks ++ rest).dropWhile (· != ':') = rest.dropWhile (· != ':') := by
    intro blanks hb rest
    refine List.dropWhile_append_of_pos fun c hc => bne_iff_ne.2 ?_
    rintro rfl
    exact absurd (hb ':' hc) (by decide)
  have hcut : text.dropWhile (· != ':') =
      (trimChars text ++ after).dropWhile (· != ':') := by
    conv => lhs; rw [htext]
    exact hpass before hbefore _
  rw [List.dropWhile_append] at hcut
  unfold behindColon at h ⊢
  rw [hcut] at h
  cases hrest : (trimChars text).dropWhile (· != ':') with
  | nil =>
    have hnone := hpass after hafter []
    rw [List.append_nil, List.dropWhile_nil] at hnone
    rw [hrest, List.isEmpty_nil, if_pos rfl, hnone] at h
    simp only at h ⊢
    rw [htext, List.mem_append, List.mem_append] at h
    exact (h.resolve_left (hkept before hbefore)).resolve_right (hkept after hafter)
  | cons c rest =>
    rw [hrest] at h
    exact (List.mem_append.1 h).resolve_right (hkept after hafter)

/-- **A text with an equals sign behind its first colon is left as it is.** -/
theorem modernizeChars_of_equals {text : List Char} (h : '=' ∈ behindColon text) :
    modernizeChars text = text := by
  rw [modernizeChars, read?_of_equals (mem_behindColon_trimChars h)]
  rfl

/-! ### Texts of other properties -/

/-- A name without blanks stands in front of the trimmed text as well. -/
theorem exists_trimChars_append {name : List Char} (hname : ∀ c ∈ name, isBlank c = false)
    (hne : name ≠ []) (rest : List Char) : ∃ rest', trimChars (name ++ rest) = name ++ rest' := by
  obtain ⟨before, after, htext, hbefore, hafter⟩ := exists_trimChars (name ++ rest)
  have hclash : ∀ c ∈ name, isBlank c ≠ true := fun c hc => by simp [hname c hc]
  obtain ⟨a, name', rfl⟩ := List.exists_cons_of_ne_nil hne
  rcases before with _ | ⟨b, before⟩
  · rw [List.nil_append] at htext
    rcases List.append_eq_append_iff.1 htext with ⟨rest', ht, -⟩ | ⟨blanks, ht, hblanks⟩
    · exact ⟨rest', ht⟩
    · rcases blanks with _ | ⟨c, blanks⟩
      · exact ⟨[], (List.append_nil _).symm.trans (ht.symm.trans (List.append_nil _).symm)⟩
      · exact absurd (hafter c (by rw [hblanks]; exact List.mem_cons_self))
          (hclash c (by rw [ht]; exact List.mem_append_right _ List.mem_cons_self))
  · rw [List.cons_append, List.cons_append] at htext
    exact absurd (hbefore b List.mem_cons_self)
      ((List.cons.inj htext).1 ▸ hclash a List.mem_cons_self)

/-- **A text of a property that lists dates is left as it is.** -/
theorem modernizeChars_of_name {name : List Char}
    (h : name = "RDATE".toList ∨ name = "EXDATE".toList) (rest : List Char) :
    modernizeChars (name ++ rest) = name ++ rest := by
  have hread : ∀ rest, read? (name ++ rest) = none := by
    intro rest
    rcases h with rfl | rfl <;> rfl
  have hname : (∀ c ∈ name, isBlank c = false) ∧ name ≠ [] := by
    rcases h with rfl | rfl <;> simp [isBlank]
  obtain ⟨rest', htrim⟩ := exists_trimChars_append hname.1 hname.2 rest
  rw [modernizeChars, htrim, hread]
  rfl

end Legacy

end Recurrence
