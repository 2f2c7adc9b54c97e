/-
# Parts of rules as they are written

Every value of a part is written as tokens joined by commas, so it is read from what
is written of it when it lies in its range: a list is not empty, and a bound is a
moment that can be written. Parts of different keys are read from what is written of
them one after the other.

Key definitions: `RulePart.tokens`, `RulePart.chars`, `RulePart.Writable`.
Key theorems: `RulePart.readValue_tokens`, `RulePart.read_chars`,
`Rule.readPartsAfter_chars`.
-/
import Recurrence.Proofs.Moment.Texts
import Recurrence.Proofs.Rule.Parsed
import Recurrence.Rule.Print

namespace Recurrence

open ContentLine Reading Text

/-- A weekday is read from what is written of it and its number. -/
theorem OrdinalWeekday.readChars_chars {day : OrdinalWeekday}
    (h : -53 ≤ day.number ∧ day.number ≤ 53) : readChars day.chars = .ok day := by
  obtain ⟨number, weekday⟩ := day
  have hlength : weekday.code.toList.length = 2 := by cases weekday <;> rfl
  have hcut : ∀ digits : List Char,
      (digits ++ weekday.code.toList).length - 2 = digits.length := by
    intro digits
    rw [List.length_append, hlength, Nat.add_sub_cancel]
  unfold chars
  by_cases hzero : number = 0
  · subst hzero
    have hread : readChars weekday.code.toList = .ok (every weekday) := by
      cases weekday <;> rfl
    rw [if_pos rfl, hread, every]
  · have hsigned : Decimal.signed? (Int32.size / 2) (Decimal.integer number).toList = some number :=
      Decimal.signed?_integer (by simp only [Int32.size] at *; omega)
    obtain ⟨c, digits, hdigits⟩ := List.exists_cons_of_ne_nil (IsToken.integer number).ne_nil
    rw [if_neg hzero, readChars, hcut, List.drop_left, List.take_left, Weekday.ofCode_code]
    rw [hdigits] at hsigned ⊢
    simp only [hsigned, if_neg hzero, of, if_pos h]
    rfl

theorem OrdinalWeekday.isToken_chars (day : OrdinalWeekday) : IsToken day.chars := by
  have hcode : ∀ weekday : Weekday, IsToken weekday.code.toList := by
    intro weekday
    cases weekday <;> decide
  unfold chars
  split
  · exact hcode day.weekday
  · exact (IsToken.integer day.number).append (hcode day.weekday)

namespace RulePart

/-! ### Values -/

/-- A bound as it is written. -/
def boundChars : Finish → List Char
  | .never | .count _ => []
  | .untilLocal bound => bound.chars
  | .untilUtc bound => bound.chars ++ ['Z']

/-- The tokens that the value of a part is written as, separated by commas. -/
def tokens : RulePart → List (List Char)
  | freq frequency => [frequency.name.toList]
  | finish bound => [boundChars bound]
  | count n => [Decimal.padded 0 n]
  | interval n => [Decimal.padded 0 n]
  | wkst day => [day.code.toList]
  | byDay days => days.map OrdinalWeekday.chars
  | byMonth months => months.map (Decimal.padded 0)
  | byMonthDay days => days.map Rule.signed
  | byWeekNo weeks => weeks.map Rule.signed
  | byYearDay days => days.map Rule.signed
  | byHour hours => hours.map (Decimal.padded 0)
  | byMinute minutes => minutes.map (Decimal.padded 0)
  | bySecond seconds => seconds.map (Decimal.padded 0)
  | bySetPos positions => positions.map Rule.signed

/-- A part as it is written. -/
def chars (part : RulePart) : List Char :=
  Rule.part part.key.name (join ',' part.tokens)

/-- Whether a bound can be written, and in UTC only with a time. -/
def WritableBound : Finish → Prop
  | .never | .count _ => False
  | .untilLocal bound => bound.Writable
  | .untilUtc bound => bound.Writable ∧ bound.hasTime = true

/-- Whether a part can be written: its value lies in its range, a list is not empty,
and a bound can be written. -/
structure Writable (part : RulePart) : Prop where
  inRange : part.InRange
  tokens : part.tokens ≠ []
  bound : ∀ bound, part = finish bound → WritableBound bound

theorem isToken_bound {bound : Finish} (h : WritableBound bound) : IsToken (boundChars bound) := by
  cases bound with
  | never => exact absurd h id
  | count => exact absurd h id
  | untilLocal bound => exact Moment.isToken_chars bound
  | untilUtc bound => exact Moment.isToken_marked bound true

variable {part : RulePart}

/-- Values are written as tokens. -/
theorem isToken_of_mem_tokens (h : part.Writable) : ∀ token ∈ part.tokens, IsToken token := by
  have hpadded : ∀ ns : List Nat, ∀ token ∈ ns.map (Decimal.padded 0), IsToken token := by
    intro ns
    simp only [List.forall_mem_map]
    exact fun n _ => IsToken.padded 0 n
  have hsigned : ∀ ns : List Int, ∀ token ∈ ns.map Rule.signed, IsToken token := by
    intro ns
    simp only [List.forall_mem_map]
    exact fun n _ => IsToken.integer n
  cases part with
  | freq frequency => exact List.forall_mem_singleton.2 (by cases frequency <;> decide)
  | finish bound => exact List.forall_mem_singleton.2 (isToken_bound (h.bound bound rfl))
  | count n => exact hpadded [n]
  | interval n => exact hpadded [n]
  | wkst day => exact List.forall_mem_singleton.2 (by cases day <;> decide)
  | byDay days => exact List.forall_mem_map.2 fun day _ => day.isToken_chars
  | byMonth ns | byHour ns | byMinute ns | bySecond ns => exact hpadded ns
  | byMonthDay ns | byWeekNo ns | byYearDay ns | bySetPos ns => exact hsigned ns

/-! ### Reading values -/

/-- The items of a value are read when each of its tokens is. -/
theorem mapM_fields {α : Type} {read : List Char → Except Fault α} {render : α → List Char}
    {values : List α} (hne : values.map render ≠ [])
    (htokens : ∀ token ∈ values.map render, IsToken token)
    (hread : ∀ a ∈ values, read (render a) = .ok a) :
    (fields ',' (join ',' (values.map render))).mapM read = .ok values := by
  rw [fields_join hne fun token htoken => (htokens token htoken).not_mem (by decide), mapM_eq_ok,
    List.forall₂_map_left_iff, List.forall₂_same]
  exact hread

theorem readNumber_of_signed? {low high : Nat} {signed : Bool} {text : List Char} {n : Int}
    (htext : IsToken text) (hread : Decimal.signed? (Int32.size / 2) text = some n)
    (h : low ≤ n.natAbs ∧ n.natAbs ≤ high ∧ (signed = true ∨ 0 ≤ n)) :
    readNumber low high signed text = .ok n := by
  rw [readNumber, htext.trim, hread]
  exact if_pos h

theorem readSigned_tokens {high : Nat} {ns : List Int} (hhigh : high < Int32.size / 2)
    (hne : ns.map Rule.signed ≠ []) (h : ∀ n ∈ ns, 1 ≤ n.natAbs ∧ n.natAbs ≤ high) :
    readSigned high (join ',' (ns.map Rule.signed)) = .ok ns := by
  refine mapM_fields hne (List.forall_mem_map.2 fun n _ => IsToken.integer n) fun n hn => ?_
  have hn := h n hn
  exact readNumber_of_signed? (IsToken.integer n) (Decimal.signed?_integer (by omega))
    ⟨hn.1, hn.2, Or.inl rfl⟩

theorem readUnsigned_tokens {low high : Nat} {ns : List Nat} (hhigh : high < Int32.size / 2)
    (hne : ns.map (Decimal.padded 0) ≠ []) (h : ∀ n ∈ ns, low ≤ n ∧ n ≤ high) :
    readUnsigned low high (join ',' (ns.map (Decimal.padded 0))) = .ok ns := by
  refine mapM_fields hne (List.forall_mem_map.2 fun n _ => IsToken.padded 0 n) fun n hn => ?_
  have hn := h n hn
  have hdigits : Decimal.integer (n : Int) = String.ofList (Decimal.padded 0 n) := by
    rw [Decimal.integer, if_neg (by omega), Int.natAbs_natCast]
  have hsigned : Decimal.signed? (Int32.size / 2) (Decimal.padded 0 n) = some (n : Int) := by
    have hinteger := @Decimal.signed?_integer (Int32.size / 2) (n : Int) (by omega)
    rwa [hdigits, String.toList_ofList] at hinteger
  rw [map_eq_ok]
  exact ⟨n, readNumber_of_signed? (IsToken.padded 0 n) hsigned
    ⟨by omega, by omega, Or.inr (by omega)⟩, Int.toNat_natCast n⟩

theorem readPositive_padded {n : Nat} (h : 1 ≤ n ∧ n ≤ UInt32.size - 1) :
    readPositive (Decimal.padded 0 n) = .ok n := by
  obtain ⟨k, rfl⟩ := Nat.exists_eq_add_of_le' h.1
  rw [readPositive, (IsToken.padded 0 _).trim, Decimal.unsigned?_padded h.2]

theorem readBound_chars {bound : Finish} (h : WritableBound bound) :
    readBound (boundChars bound) = .ok bound := by
  rw [readBound, map_eq_ok]
  cases bound with
  | never => exact absurd h id
  | count => exact absurd h id
  | untilLocal bound =>
    have hread := Moment.readMarked_text h false (by simp)
    rw [show bound.chars ++ Moment.mark false = bound.chars from List.append_nil _] at hread
    exact ⟨_, hread, rfl⟩
  | untilUtc bound => exact ⟨_, Moment.readMarked_text h.1 true fun _ => h.2, rfl⟩

/-- **A value is read from what is written of it.** -/
theorem readValue_tokens (h : part.Writable) :
    readValue (join ',' part.tokens) part.key = .ok part := by
  have hrange := h.inRange
  have hne := h.tokens
  cases part with
  | freq frequency => cases frequency <;> rfl
  | finish bound => exact map_eq_ok.2 ⟨_, readBound_chars (h.bound bound rfl), rfl⟩
  | count n => exact map_eq_ok.2 ⟨_, readPositive_padded hrange, rfl⟩
  | interval n => exact map_eq_ok.2 ⟨_, readPositive_padded hrange, rfl⟩
  | wkst day => cases day <;> rfl
  | byDay days =>
    refine map_eq_ok.2 ⟨_, mapM_fields hne (isToken_of_mem_tokens h) fun day hday => ?_, rfl⟩
    rw [day.isToken_chars.trim, OrdinalWeekday.readChars_chars (hrange day hday)]
  | byMonth ns => exact map_eq_ok.2 ⟨_, readUnsigned_tokens (by decide) hne hrange, rfl⟩
  | byMonthDay ns => exact map_eq_ok.2 ⟨_, readSigned_tokens (by decide) hne hrange, rfl⟩
  | byWeekNo ns => exact map_eq_ok.2 ⟨_, readSigned_tokens (by decide) hne hrange, rfl⟩
  | byYearDay ns => exact map_eq_ok.2 ⟨_, readSigned_tokens (by decide) hne hrange, rfl⟩
  | byHour ns =>
    exact map_eq_ok.2 ⟨_, readUnsigned_tokens (by decide) hne fun n hn =>
      ⟨n.zero_le, hrange n hn⟩, rfl⟩
  | byMinute ns =>
    exact map_eq_ok.2 ⟨_, readUnsigned_tokens (by decide) hne fun n hn =>
      ⟨n.zero_le, hrange n hn⟩, rfl⟩
  | bySecond ns =>
    exact map_eq_ok.2 ⟨_, readUnsigned_tokens (by decide) hne fun n hn =>
      ⟨n.zero_le, hrange n hn⟩, rfl⟩
  | bySetPos ns => exact map_eq_ok.2 ⟨_, readSigned_tokens (by decide) hne hrange, rfl⟩

/-! ### Reading parts -/

/-- The names of keys are tokens in capitals. -/
theorem isToken_keyName (key : RuleKey) : IsToken key.name.toList := by
  cases key <;> decide

theorem split?_part (key : RuleKey) (value : List Char) :
    split? (Rule.part key.name value) = some (key.name, value) := by
  have hnot : '=' ∉ key.name.toList := (isToken_keyName key).not_mem (by decide)
  have hcapitals : String.ofList (upperChars key.name.toList) = key.name := by
    cases key <;> decide
  rw [split?, Rule.part, dropWhile_bne_append hnot, takeWhile_bne_append hnot]
  simp only [(isToken_keyName key).trim, hcapitals]

theorem ofName?_name (key : RuleKey) : RuleKey.ofName? key.name = some key :=
  RuleKey.ofName?_eq_some_iff.2 rfl

/-- **A part is read from what is written of it.** -/
theorem read_chars (h : part.Writable) : read part.chars = .ok (some part) := by
  rw [read, chars, split?_part]
  simp only [ofName?_name, inProduction_eq_ok, bare_eq_ok]
  exact map_eq_ok.2 ⟨part, readValue_tokens h, rfl⟩

/-- A part consists of characters of names, its equals sign and commas. -/
theorem of_mem_chars (h : part.Writable) {c : Char} (hc : c ∈ part.chars) :
    isNameChar c = true ∨ c = '=' ∨ c = ',' := by
  rw [chars, Rule.part, List.mem_append, List.mem_cons] at hc
  rcases hc with hc | rfl | hc
  · exact Or.inl ((isToken_keyName _).chars c hc)
  · exact Or.inr (Or.inl rfl)
  · rcases mem_join hc with rfl | ⟨token, htoken, hc⟩
    · exact Or.inr (Or.inr rfl)
    · exact Or.inl ((isToken_of_mem_tokens h token htoken).chars c hc)

theorem trimChars_chars (h : part.Writable) : trimChars part.chars = part.chars := by
  refine trimChars_eq_self fun c hc => ?_
  rcases of_mem_chars h hc with hname | rfl | rfl
  · exact isBlank_of_isNameChar hname
  · rfl
  · rfl

end RulePart

namespace Rule

/-- **Parts are read from what is written of them**, if no two have the same key. -/
theorem readPartsAfter_chars {whole : String} {seen : List RuleKey} {parts : List RulePart}
    (h : ∀ part ∈ parts, part.Writable) (hkeys : (parts.map RulePart.key).Nodup)
    (hseen : ∀ part ∈ parts, part.key ∉ seen) :
    readPartsAfter whole seen (parts.map RulePart.chars) = .ok parts := by
  induction parts generalizing seen with
  | nil => rfl
  | cons part parts ih =>
    rw [List.forall_mem_cons] at h hseen
    rw [List.map_cons, List.nodup_cons] at hkeys
    have hrest : readPartsAfter whole (part.key :: seen) (parts.map RulePart.chars) =
        .ok parts := by
      refine ih h.2 hkeys.2 fun other hother => ?_
      rw [List.mem_cons, not_or]
      exact ⟨fun heq => hkeys.1 (List.mem_map.2 ⟨other, hother, heq⟩), hseen.2 other hother⟩
    have hne : (trimChars part.chars).isEmpty = false := by
      rw [RulePart.trimChars_chars h.1, List.isEmpty_eq_false_iff]
      exact List.append_ne_nil_of_right_ne_nil _ (List.cons_ne_nil _ _)
    rw [List.map_cons, readPartsAfter, if_neg (by simp [hne]), bind_eq_ok]
    refine ⟨some part, RulePart.read_chars h.1, ?_⟩
    simp only [ite_throw_eq_ok, bind_eq_ok, pure_eq_ok]
    exact ⟨hseen.1, parts, hrest, rfl⟩

end Rule

end Recurrence
