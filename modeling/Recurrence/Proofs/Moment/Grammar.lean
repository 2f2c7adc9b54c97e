/-
# Date texts

A date text spells a moment when its capitals are what is written of the moment, with
or without the mark of UTC behind a time. Such texts, and no others, are read: eight
digits that name an existing date, and with a time a letter T and six digits more, in
any case.

Key definitions: `Moment.Spells`.
Key theorems: `Moment.readChars_eq_ok_iff_spells`.
-/
import Recurrence.Proofs.Moment.Texts
import Recurrence.Proofs.Text.Case
import Recurrence.Proofs.Text.Numerals

namespace Recurrence

open Reading Text

namespace Moment

/-- Whether a text spells a moment of a year of four digits, with the mark of UTC or
without it, in letters of any case. -/
structure Spells (text : List Char) (m : Moment) (utc : Bool) : Prop where
  writable : m.Writable
  timed : utc = true → m.hasTime = true
  capitals : upperChars text = m.chars ++ mark utc

variable {text : List Char} {m : Moment} {utc : Bool}

/-! ### The case of letters -/

theorem shape?_upperChars (text : List Char) : shape? (upperChars text) = shape? text := by
  have hat : ∀ i : Nat, (upperChars text)[i]?.map Char.toUpper = text[i]?.map Char.toUpper := by
    intro i
    rw [upperChars, List.getElem?_map, Option.map_map]
    exact congrArg (text[i]?.map ·) (funext toUpper_toUpper)
  have hlength : (upperChars text).length = text.length := List.length_map _
  simp only [shape?, hat, hlength]

theorem digitsAt_upperChars {start count n : Nat} :
    digitsAt (upperChars text) start count = .ok n ↔ digitsAt text start count = .ok n := by
  have hpart : ((upperChars text).drop start).take count =
      upperChars ((text.drop start).take count) := by
    rw [upperChars, upperChars, List.map_take, List.map_drop]
  have hall : (upperChars ((text.drop start).take count)).all Char.isDigit =
      ((text.drop start).take count).all Char.isDigit := by
    rw [upperChars, List.all_map]
    exact congrArg (List.all _) (funext isDigit_toUpper)
  simp only [digitsAt, hpart, hall]
  split
  · rename_i hdigits
    rw [upperChars_of_digits (List.all_eq_true.1 hdigits)]
  · simp

/-- Date texts are read whatever the case of their letters is. -/
theorem readChars_upperChars :
    readChars (upperChars text) = .ok (m, utc) ↔ readChars text = .ok (m, utc) := by
  have hascii : (upperChars text).all (·.toNat < 128) = text.all (·.toNat < 128) := by
    rw [upperChars, List.all_map]
    exact congrArg (List.all _) (funext fun c => decide_eq_decide.2 (toUpper_lt_iff c))
  simp only [readChars_eq_ok_iff, hascii, shape?_upperChars, digitsAt_upperChars]

/-! ### The places of a date text -/

theorem drop_of_digitsAt {start count n : Nat} (h : digitsAt text start count = .ok n)
    (hlength : start + count ≤ text.length) (hcount : 0 < count) :
    text.drop start = Decimal.padded count n ++ text.drop (start + count) := by
  have hpart : ((text.drop start).take count).length = count := by
    rw [List.length_take, List.length_drop]
    omega
  simp only [digitsAt] at h
  split at h
  · rename_i hdigits
    obtain rfl := Except.ok.inj h
    have hpadded := Decimal.padded_value (List.ne_nil_of_length_pos (by rwa [hpart]))
      (List.all_eq_true.1 hdigits)
    rw [hpart] at hpadded
    rw [hpadded, ← List.drop_drop, List.take_append_drop]
  · exact absurd h (by simp)

theorem date_of_digitsAt {year month day : Nat} (hyear : digitsAt text 0 4 = .ok year)
    (hmonth : digitsAt text 4 2 = .ok month) (hday : digitsAt text 6 2 = .ok day)
    (hlength : 8 ≤ text.length) :
    text = (⟨year, month, day⟩ : Date).chars ++ text.drop 8 := by
  have hnatAbs : (year : Int).natAbs = year := Int.natAbs_natCast year
  rw [Date.chars, Decimal.year, if_neg (show ¬ (year : Int) < 0 by omega), hnatAbs,
    List.append_assoc, List.append_assoc,
    ← drop_of_digitsAt hday (by omega) (by decide),
    ← drop_of_digitsAt hmonth (by omega) (by decide), ← drop_of_digitsAt hyear (by omega) (by decide), List.drop_zero]

theorem time_of_digitsAt {hour minute second : Nat} (hhour : digitsAt text 9 2 = .ok hour)
    (hminute : digitsAt text 11 2 = .ok minute) (hsecond : digitsAt text 13 2 = .ok second)
    (hlength : 15 ≤ text.length) :
    text.drop 9 = (⟨hour, minute, second⟩ : TimeOfDay).chars ++ text.drop 15 := by
  rw [TimeOfDay.chars, List.append_assoc, List.append_assoc,
    ← drop_of_digitsAt hsecond (by omega) (by decide),
    ← drop_of_digitsAt hminute (by omega) (by decide),
    ← drop_of_digitsAt hhour (by omega) (by decide)]

theorem isDigit_dateChars {d : Date} (h : 0 ≤ d.year) : ∀ c ∈ d.chars, c.isDigit = true := by
  intro c hc
  rw [Date.chars, Decimal.year, if_neg (by omega), List.mem_append, List.mem_append] at hc
  rcases hc with (hc | hc) | hc <;> exact Decimal.isDigit_of_mem_padded hc

theorem isDigit_timeChars (t : TimeOfDay) : ∀ c ∈ t.chars, c.isDigit = true := by
  intro c hc
  rw [TimeOfDay.chars, List.mem_append, List.mem_append] at hc
  rcases hc with (hc | hc) | hc <;> exact Decimal.isDigit_of_mem_padded hc

theorem drop_of_letter {i : Nat} {c : Char} (h : text[i]?.map Char.toUpper = some c) :
    upperChars (text.drop i) = c :: upperChars (text.drop (i + 1)) := by
  obtain ⟨letter, hletter, rfl⟩ := Option.map_eq_some_iff.1 h
  obtain ⟨hi, rfl⟩ := List.getElem?_eq_some_iff.1 hletter
  rw [List.drop_eq_getElem_cons hi]
  rfl

/-- What stands at the other places of a date text. -/
theorem places_of_shape? {timed marked : Bool} (h : shape? text = some (timed, marked)) :
    if timed = true then
      15 ≤ text.length ∧ upperChars (text.drop 8) = 'T' :: upperChars (text.drop 9) ∧
        upperChars (text.drop 15) = mark marked
    else text.length = 8 ∧ marked = false := by
  unfold shape? at h
  simp only [Bool.and_eq_true, decide_eq_true_eq, beq_iff_eq] at h
  split_ifs at h with hdate htime hutc
  · obtain ⟨rfl, rfl⟩ := Prod.mk.inj (Option.some.inj h)
    exact ⟨hdate, rfl⟩
  · obtain ⟨rfl, rfl⟩ := Prod.mk.inj (Option.some.inj h)
    refine ⟨htime.1.ge, drop_of_letter htime.2, ?_⟩
    rw [List.drop_of_length_le htime.1.le]
    rfl
  · obtain ⟨rfl, rfl⟩ := Prod.mk.inj (Option.some.inj h)
    refine ⟨by omega, drop_of_letter hutc.1.2, ?_⟩
    rw [drop_of_letter hutc.2, List.drop_of_length_le (by omega)]
    rfl

/-- **Which texts are read as dates**, and as what. -/
theorem readChars_eq_ok_iff_spells : readChars text = .ok (m, utc) ↔ Spells text m utc := by
  constructor
  · intro h
    obtain ⟨hwritable, htimed⟩ := writable_of_readChars h
    refine ⟨hwritable, htimed, ?_⟩
    obtain ⟨-, timed, marked, hshape, year, hyear, month, hmonth, day, hday, -, hrest⟩ :=
      readChars_eq_ok_iff.1 h
    have hplaces := places_of_shape? hshape
    cases timed with
    | false =>
      obtain ⟨hlength, -⟩ := hplaces
      obtain ⟨rfl, rfl⟩ := hrest
      have htext := date_of_digitsAt hyear hmonth hday hlength.ge
      rw [List.drop_of_length_le hlength.le, List.append_nil] at htext
      rw [htext, upperChars_of_digits (isDigit_dateChars (Int.natCast_nonneg year))]
      exact (List.append_nil _).symm
    | true =>
      obtain ⟨hlength, hletter, hmark⟩ := hplaces
      obtain ⟨hour, hhour, minute, hminute, second, hsecond, hbounds, rfl, rfl⟩ := hrest
      have htime : TimeOfDay.of hour minute second = ⟨hour, minute, second⟩ :=
        of_eq_self (t := ⟨hour, minute, second⟩) (by simp only; omega) (by simp only; omega)
      have htext := date_of_digitsAt hyear hmonth hday (by omega)
      rw [htext, upperChars_append, hletter, time_of_digitsAt hhour hminute hsecond hlength,
        upperChars_append, hmark,
        upperChars_of_digits (isDigit_dateChars (Int.natCast_nonneg year)), upperChars_of_digits (isDigit_timeChars _), htime]
      simp only [chars, List.append_assoc, List.cons_append]
  · intro h
    rw [← readChars_upperChars, h.capitals]
    exact readChars_chars h.writable utc h.timed

end Moment

end Recurrence
