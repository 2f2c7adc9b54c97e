/-
# The present form of vCalendar rules

A rule of vCalendar 1.0 becomes a frequency, an interval, the part that its words say and
the part of its end. Each is written as a part of a rule, their keys are distinct, and
together they describe the rule that is meant.

Key definitions: `Legacy.Writes`, `Legacy.presentTexts`, `Legacy.presentParts`.
Key theorems: `Legacy.ending_writes`, `Legacy.present_writes`, `Legacy.ofParts_present`,
`Legacy.read_present`.
-/
import Recurrence.Proofs.Legacy.Narrowing
import Recurrence.Proofs.Rule.Reading

namespace Recurrence.Legacy

open ContentLine Decimal Reading Text

/-! ### Parts in their present form -/

/-- Whether a text gives a part and holds nothing that ends a part or a line. -/
structure Writes (text : List Char) (part : RulePart) : Prop where
  given : part.GivenBy text
  chars : ∀ c ∈ text, isNameChar c = true ∨ c = '=' ∨ c = ','

theorem writes_chars {part : RulePart} (h : part.Writable) : Writes part.chars part :=
  ⟨RulePart.read_eq_some_iff.1 (RulePart.read_chars h), fun _ => RulePart.of_mem_chars h⟩

/-- A key that is written together with its equals sign. -/
theorem append_eq_part {text key : String} (h : text.toList = key.toList ++ ['='])
    (value : List Char) : text.toList ++ value = Rule.part key value := by
  rw [h, List.append_assoc]
  rfl

/-- A part whose value is the digits of a number. -/
theorem writes_digits (part : RulePart) {digits : List Char} {n : Nat} (h : Digits digits n)
    (hvalue : part.Says digits ↔ SpellsIn 1 (UInt32.size - 1) (trimChars digits) n)
    (hn : 1 ≤ n ∧ n ≤ UInt32.size - 1) : Writes (Rule.part part.key.name digits) part := by
  have hkey := RulePart.isToken_keyName part.key
  have hdigits := isToken_of_digits h
  refine ⟨⟨part.key.name.toList, digits, rfl, hkey.not_mem (by decide), ?_, ?_⟩, ?_⟩
  · rw [hkey.trim]
    generalize part.key = key
    cases key <;> decide
  · rw [hvalue, hdigits.trim]
    exact ⟨.plain h, hn⟩
  · rw [Rule.part, List.forall_mem_append, List.forall_mem_cons]
    exact ⟨fun c hc => Or.inl (hkey.chars c hc), Or.inr (Or.inl rfl),
      fun c hc => Or.inl (hdigits.chars c hc)⟩

/-- What a number of instances becomes. -/
theorem ending_count {digits : List Char} {n : Nat} (h : Digits digits n) (hn : 1 ≤ n) :
    ending (some ('#' :: digits)) = [Rule.part "COUNT" digits] := by
  have hupper : upperChars ('#' :: digits) = '#' :: digits := by
    rw [upperChars, List.map_cons]
    exact congrArg _ (upperChars_of_digits h.isDigit)
  have hzero : digits ≠ ['0'] := by
    rintro rfl
    exact absurd h.value (by rintro rfl; exact absurd hn (by decide))
  unfold ending
  rw [Option.map_some, hupper]
  split
  · rename_i heq
    exact absurd heq (by simp)
  · rename_i heq
    exact absurd (List.cons.inj (Option.some.inj heq)).2 hzero
  · rename_i heq
    rw [(List.cons.inj (Option.some.inj heq)).2]
    exact congrArg (fun text => [text]) (append_eq_part (by decide) _)
  · rename_i hno heq
    exact absurd (Option.some.inj heq).symm (hno _)

/-- What a bound becomes. -/
theorem ending_bound {text bound : List Char} (hupper : upperChars text = bound)
    (hplain : '#' ∉ bound) : ending (some text) = [Rule.part "UNTIL" (bound ++
      if bound.contains 'T' ∧ bound.getLast? ≠ some 'Z' then ['Z'] else [])] := by
  unfold ending
  rw [Option.map_some, hupper]
  split
  · rename_i heq
    exact absurd heq (by simp)
  · rename_i heq
    exact absurd (Option.some.inj heq ▸ List.mem_cons_self) hplain
  · rename_i heq
    exact absurd (Option.some.inj heq ▸ List.mem_cons_self) hplain
  · rename_i heq
    rw [← Option.some.inj heq]
    dsimp only
    rw [List.append_assoc]
    exact congrArg (fun text => [text]) (append_eq_part (by decide) _)

/-- **The duration becomes the part of the end that it sets.** -/
theorem ending_writes {duration : Option (List Char)} {finish : Finish}
    (h : SpellsDuration duration finish) :
    List.Forall₂ Writes (ending duration) (Rule.finishSaid finish) := by
  have hbound : ∀ {bound : Finish}, RulePart.WritableBound bound →
      Writes (Rule.part "UNTIL" (RulePart.boundChars bound)) (.finish bound) := by
    intro bound h
    have hwritable : (RulePart.finish bound).Writable := by
      refine ⟨?_, by simp [RulePart.tokens], fun b hb => RulePart.finish.inj hb ▸ h⟩
      rintro n rfl
      exact h
    exact writes_chars hwritable
  have hplain : ∀ (bound : Moment) (utc : Bool), '#' ∉ bound.chars ++ Moment.mark utc :=
    fun _ _ => (Moment.isToken_marked _ _).not_mem (by decide)
  cases h with
  | none =>
    have hdigits : Digits ['2'] 2 := ⟨by decide, by decide, by decide⟩
    exact .cons (writes_digits (.count 2) hdigits Iff.rfl (by decide)) .nil
  | endless => exact .nil
  | @count digits n hdigits hleast hmost =>
    rw [ending_count hdigits hleast]
    exact .cons (writes_digits (.count n) hdigits Iff.rfl ⟨hleast, hmost⟩) .nil
  | @date text bound h hdated =>
    have hletter : ¬ (bound.chars.contains 'T' = true) := by
      obtain ⟨d, _ | t⟩ := bound
      · intro hmem
        exact absurd (Moment.isDigit_dateChars h.writable.year.1 'T' (List.contains_iff_mem.1 hmem))
          (by decide)
      · exact absurd hdated (by simp [Moment.hasTime])
    rw [ending_bound h.capitals (hplain _ _), show Moment.mark false = [] from rfl,
      List.append_nil, if_neg fun h => hletter h.1, List.append_nil]
    exact .cons (@hbound (.untilLocal bound) h.writable) .nil
  | @time text bound utc h htimed =>
    have hletter : bound.chars.contains 'T' = true := by
      obtain ⟨d, _ | t⟩ := bound
      · exact absurd htimed (by simp [Moment.hasTime])
      · simp [Moment.chars]
    have hlast : bound.chars.getLast? ≠ some 'Z' := by
      intro heq
      have hz := Moment.of_mem_chars (List.mem_of_getLast? heq)
      exact absurd hz (by decide)
    have hmarked : (bound.chars ++ Moment.mark utc) ++
        (if (bound.chars ++ Moment.mark utc).contains 'T' ∧
            (bound.chars ++ Moment.mark utc).getLast? ≠ some 'Z' then ['Z'] else []) =
        bound.chars ++ ['Z'] := by
      cases utc with
      | true => simp [Moment.mark]
      | false =>
        rw [show Moment.mark false = [] from rfl, List.append_nil, if_pos ⟨hletter, hlast⟩]
    rw [ending_bound h.capitals (hplain _ _), hmarked]
    exact .cons (@hbound (.untilUtc bound) ⟨h.writable, htimed⟩) .nil

/-! ### The present form -/

/-- The parts that a rule becomes, as they are written. -/
def presentTexts (frequency : Frequency) (digits : List Char) (narrowing : List (List Char))
    (duration : Option (List Char)) : List (List Char) :=
  [("FREQ=" ++ frequency.name).toList, "INTERVAL=".toList ++ digits] ++ narrowing ++ ending duration

/-- The parts that a rule becomes. -/
def presentParts (frequency : Frequency) (n : Nat) (narrowing : Narrowing code) (finish : Finish) :
    List RulePart :=
  [.freq frequency, .interval n] ++ narrowing.said ++ Rule.finishSaid finish

variable {code : Code} {narrowing : Narrowing code} {frequency : Frequency}
  {digits : List Char} {n : Nat} {duration : Option (List Char)} {finish : Finish}

/-- **The parts that a rule becomes are given by what is written of them.** -/
theorem present_writes (hdigits : Digits digits n) (hn : 1 ≤ n ∧ n ≤ UInt32.size - 1)
    (hrange : narrowing.InRange) (hduration : SpellsDuration duration finish) :
    List.Forall₂ Writes (presentTexts frequency digits (narrowing.said.map RulePart.chars) duration)
      (presentParts frequency n narrowing finish) := by
  have hfreq : Writes ("FREQ=" ++ frequency.name).toList (.freq frequency) := by
    have hwritable : (RulePart.freq frequency).Writable :=
      ⟨trivial, by simp [RulePart.tokens], by simp⟩
    rw [String.toList_append, append_eq_part (by decide : "FREQ=".toList = "FREQ".toList ++ ['='])]
    exact writes_chars hwritable
  have hinterval : Writes ("INTERVAL=".toList ++ digits) (.interval n) := by
    rw [append_eq_part (by decide : "INTERVAL=".toList = "INTERVAL".toList ++ ['='])]
    exact writes_digits (.interval n) hdigits Iff.rfl hn
  have hnarrowing : List.Forall₂ Writes (narrowing.said.map RulePart.chars) narrowing.said := by
    rw [List.forall₂_map_left_iff, List.forall₂_same]
    exact fun part hpart => writes_chars (narrowing.writable_of_mem_said hrange part hpart)
  exact List.rel_append (List.rel_append (.cons hfreq (.cons hinterval .nil)) hnarrowing)
    (ending_writes hduration)

/-- The parts that a rule becomes have distinct keys and one end at most. -/
theorem keys_present : ((presentParts frequency n narrowing finish).map RulePart.key).Nodup ∧
    ¬ (RuleKey.untilBound ∈ (presentParts frequency n narrowing finish).map RulePart.key ∧
      RuleKey.count ∈ (presentParts frequency n narrowing finish).map RulePart.key) := by
  obtain ⟨key, hkey, hsaid⟩ := narrowing.keys_said
  obtain ⟨last, hlast, hfinish⟩ := Rule.keys_finishSaid finish
  have hkeys : ((presentParts frequency n narrowing finish).map RulePart.key).Sublist
      [.freq, .interval, key, last] := by
    simp only [presentParts, List.map_append]
    exact ((List.Sublist.refl [RuleKey.freq, .interval]).append hsaid).append hfinish
  have hnodup : [RuleKey.freq, .interval, key, last].Nodup ∧
      ¬ (RuleKey.untilBound ∈ [RuleKey.freq, .interval, key, last] ∧
        RuleKey.count ∈ [RuleKey.freq, .interval, key, last]) := by
    rcases hkey with rfl | rfl | rfl | rfl <;> rcases hlast with rfl | rfl <;> decide
  exact ⟨hkeys.nodup hnodup.1, fun h => hnodup.2 ⟨hkeys.subset h.1, hkeys.subset h.2⟩⟩

/-- **The parts that a rule becomes describe what it means.** -/
theorem ofParts_present (whole : String) :
    Rule.ofParts whole (presentParts frequency n narrowing finish) =
      .ok { narrowing.restrict (Rule.every frequency) with finish, interval := n } := by
  rw [Rule.ofParts, if_neg keys_present.2]
  refine congrArg Except.ok ?_
  unfold presentParts Rule.withParts Rule.valueOr
  cases narrowing with
  | daily => cases finish <;> rfl
  | weekly days => cases days <;> cases finish <;> rfl
  | monthDays days | yearDays days | yearMonths months | monthPositions runs =>
    cases finish <;>
      simp [Narrowing.said, Narrowing.restrict, Rule.findSome?_listSaid, Rule.finishSaid,
        Rule.every, Rule.getD_unless]

/-- What is written of a part holds no semicolon and no break. -/
theorem Writes.plain {text : List Char} {part : RulePart} (h : Writes text part) :
    ';' ∉ text ∧ ∀ c ∈ text, isBreak c = false := by
  refine ⟨fun hmem => absurd (h.chars ';' hmem) (by decide), fun c hc => ?_⟩
  rcases h.chars c hc with hname | rfl | rfl
  · exact isBreak_of_isNameChar hname
  · rfl
  · rfl

/-- **The present form is read as what the rule means.** -/
theorem read_present (hdigits : Digits digits n) (hn : 1 ≤ n ∧ n ≤ UInt32.size - 1)
    (hrange : narrowing.InRange) (hduration : SpellsDuration duration finish) :
    let body :=
      join ';' (presentTexts frequency digits (narrowing.said.map RulePart.chars) duration)
    Rule.read (String.ofList body) =
        .ok { narrowing.restrict (Rule.every frequency) with finish, interval := n } ∧
      ∀ c ∈ body, isBreak c = false := by
  intro body
  have hwrites : List.Forall₂ Writes
      (presentTexts frequency digits (narrowing.said.map RulePart.chars) duration) _ :=
    present_writes hdigits hn hrange hduration
  have hplain := forall_mem_of_forall₂ hwrites fun _ _ => Writes.plain
  have hfields : fields ';' (String.ofList body).toList =
      presentTexts frequency digits (narrowing.said.map RulePart.chars) duration := by
    rw [String.toList_ofList]
    exact fields_join (by simp [presentTexts]) fun text htext => (hplain text htext).1
  refine ⟨?_, fun c hc => ?_⟩
  · refine Rule.read_of_given ?_ keys_present.1 (ofParts_present _)
    rw [hfields]
    exact hwrites.imp fun _ _ h => h.given
  · rcases mem_join hc with rfl | ⟨text, htext, hc⟩
    · rfl
    · exact (hplain text htext).2 c hc

end Recurrence.Legacy
