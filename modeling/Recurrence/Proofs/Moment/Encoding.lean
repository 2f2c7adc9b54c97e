/-
# Dates and their texts

What is written of a moment stands for it. A text is read as a date exactly when, trimmed,
it is eight digits that name an existing date, with a letter T and six digits of a time
behind them or without, and with a letter Z behind the time or without. Its capitals are
then what is written of the moment that is read, and the mark of UTC if it was there. The
moments of the years 0 to 9999 are in the order of the bytes of what is written of them: all
fields have places enough for their numbers, and a date is the beginning of every date-time
of its day.

Key definitions: `Moment.NamesDate`, `Moment.NamesTime`, `Moment.Form`.
Key theorems: `Moment.namesDate_iff`, `Moment.namesTime_iff`, `Moment.form_iff_spells`,
`Moment.chars_lt_chars`, `Moment.texts_encode`.
-/
import Recurrence.Proofs.Moment.Grammar
import Recurrence.Proofs.Text.Bytes

namespace Recurrence

open Calendar Reading Text

/-- Whether a text is a run of digits in so many places that stand for a number. -/
structure Decimal.Places (count : Nat) (text : List Char) (n : Nat) : Prop where
  digits : Digits text n
  length : text.length = count

namespace Moment

/-! ### The form of a date text -/

/-- Whether a text names an existing date of a year from 0 to 9999 in eight digits. -/
inductive NamesDate : List Char → Date → Prop
  | digits {yearText monthText dayText : List Char} {year month day : Nat}
      (hyear : Decimal.Places 4 yearText year) (hmonth : Decimal.Places 2 monthText month)
      (hday : Decimal.Places 2 dayText day) (month_pos : 1 ≤ month) (month_le : month ≤ 12)
      (day_pos : 1 ≤ day) (day_le : day ≤ daysInMonth (gregorianLeap year) month) :
      NamesDate (yearText ++ monthText ++ dayText) ⟨year, month, day⟩

/-- Whether a text names a time of day in six digits: an hour up to 24, which is the
midnight that ends the day, a minute up to 59 and a second up to 60. -/
inductive NamesTime : List Char → TimeOfDay → Prop
  | digits {hourText minuteText secondText : List Char} {hour minute second : Nat}
      (hhour : Decimal.Places 2 hourText hour) (hminute : Decimal.Places 2 minuteText minute)
      (hsecond : Decimal.Places 2 secondText second) (hour_le : hour ≤ 24)
      (minute_le : minute ≤ 59) (second_le : second ≤ 60)
      (midnight : hour = 24 → minute = 0 ∧ second = 0) :
      NamesTime (hourText ++ minuteText ++ secondText) ⟨hour, minute, second⟩

/-- Whether a text has the form of a date, of a date-time, or of a date-time that is marked
as UTC. -/
inductive Form : List Char → Moment → Bool → Prop
  | date {text : List Char} {d : Date} (hdate : NamesDate text d) : Form text ⟨d, none⟩ false
  | unmarked {date time : List Char} {d : Date} {t : TimeOfDay} {letter : Char}
      (hdate : NamesDate date d) (htime : NamesTime time t) (hletter : letter.toUpper = 'T') :
      Form (date ++ letter :: time) ⟨d, some t⟩ false
  | marked {date time : List Char} {d : Date} {t : TimeOfDay} {letter zulu : Char}
      (hdate : NamesDate date d) (htime : NamesTime time t) (hletter : letter.toUpper = 'T')
      (hzulu : zulu.toUpper = 'Z') :
      Form (date ++ letter :: (time ++ [zulu])) ⟨d, some t⟩ true

variable {text : List Char} {d e : Date} {t u : TimeOfDay} {a b m : Moment} {utc : Bool}

/-- A number has one text in so many places. -/
theorem places_iff {count n : Nat} (hcount : 0 < count) (hn : n < 10 ^ count) :
    Decimal.Places count text n ↔ text = Decimal.padded count n := by
  constructor
  · rintro ⟨⟨hne, hdigits, rfl⟩, rfl⟩
    exact (Decimal.padded_value hne hdigits).symm
  · rintro rfl
    exact ⟨⟨Decimal.padded_ne_nil _ _, fun _ => Decimal.isDigit_of_mem_padded,
      Decimal.value_padded _ _⟩, Decimal.length_padded hcount hn⟩

theorem lt_of_places {count n : Nat} (h : Decimal.Places count text n) : n < 10 ^ count := by
  obtain ⟨⟨-, hdigits, rfl⟩, rfl⟩ := h
  exact Decimal.value_lt (List.all_eq_true.2 hdigits)

/-- **A text names a date exactly when it is what is written of it.** -/
theorem namesDate_iff : NamesDate text d ↔
    text = d.chars ∧ d.inCalendar = true ∧ 0 ≤ d.year ∧ d.year ≤ 9999 := by
  constructor
  · rintro ⟨hyear, hmonth, hday, hmonthPos, hmonthLe, hdayPos, hdayLe⟩
    have hyearLt := lt_of_places hyear
    rw [places_iff (by decide) hyearLt] at hyear
    rw [places_iff (by decide) (lt_of_places hmonth)] at hmonth
    rw [places_iff (by decide) (lt_of_places hday)] at hday
    refine ⟨?_, (Date.inCalendar_iff _).2 ⟨?_, hmonthPos, hmonthLe, hdayPos, hdayLe⟩, ?_⟩
    · rw [Date.chars, Decimal.year, if_neg (by simp), Int.natAbs_natCast, hyear, hmonth, hday]
    · exact hasYear_of_bounds (by simp only; omega) (by simp only; omega)
    · simp only
      omega
  · rintro ⟨rfl, hin, hyear⟩
    obtain ⟨hchars, hyearLength, hmonthLength, hdayLength⟩ := dateChars_eq hin hyear
    obtain ⟨-, hmonthPos, hmonthLe, hdayPos, hdayLe⟩ := (Date.inCalendar_iff d).1 hin
    have hdays := @daysInMonth_le (gregorianLeap d.year) d.month
    obtain ⟨year, month, day⟩ := d
    lift year to Nat using hyear.1
    rw [hchars, ← List.append_assoc]
    exact .digits ((places_iff (by decide) (by simp only at *; omega)).2 rfl)
      ((places_iff (by decide) (by simp only at *; omega)).2 rfl)
      ((places_iff (by decide) (by simp only at *; omega)).2 rfl) hmonthPos hmonthLe hdayPos hdayLe

/-- **A text names a time exactly when it is what is written of it.** -/
theorem namesTime_iff : NamesTime text t ↔ text = t.chars ∧
    (t.hour ≤ 24 ∧ t.minute ≤ 59 ∧ t.second ≤ 60) ∧
      (t.hour = 24 → t.minute = 0 ∧ t.second = 0) := by
  constructor
  · rintro ⟨hhour, hminute, hsecond, hhourLe, hminuteLe, hsecondLe, hmidnight⟩
    rw [places_iff (by decide) (lt_of_places hhour)] at hhour
    rw [places_iff (by decide) (lt_of_places hminute)] at hminute
    rw [places_iff (by decide) (lt_of_places hsecond)] at hsecond
    exact ⟨by rw [TimeOfDay.chars, hhour, hminute, hsecond],
      ⟨hhourLe, hminuteLe, hsecondLe⟩, hmidnight⟩
  · rintro ⟨rfl, ⟨hhour, hminute, hsecond⟩, hmidnight⟩
    exact .digits ((places_iff (by decide) (by omega)).2 rfl)
      ((places_iff (by decide) (by omega)).2 rfl) ((places_iff (by decide) (by omega)).2 rfl)
      hhour hminute hsecond hmidnight

/-! ### Which texts are read -/

/-- What has digits for capitals is those digits. -/
theorem eq_of_upperChars_digits {digits : List Char} (h : ∀ c ∈ digits, c.isDigit = true)
    (heq : upperChars text = digits) : text = digits := by
  rw [← heq, upperChars_of_digits]
  intro c hc
  rw [← isDigit_toUpper]
  exact h _ (heq ▸ List.mem_map_of_mem hc)

/-- The capitals of a text are a date-time with a mark exactly when the text is the same
digits, with a letter T between them and the mark behind them in either case. -/
theorem upperChars_eq_dateTime_iff (hyear : 0 ≤ d.year) {mark : List Char} :
    upperChars text = d.chars ++ 'T' :: (t.chars ++ mark) ↔ ∃ letter last,
      letter.toUpper = 'T' ∧ upperChars last = mark ∧
        text = d.chars ++ letter :: (t.chars ++ last) := by
  have hdigits := isDigit_dateChars hyear
  constructor
  · intro h
    obtain ⟨date, behind, rfl, hdate, hbehind⟩ := List.map_eq_append_iff.1 h
    obtain ⟨letter, rest, rfl, hletter, hrest⟩ := List.map_eq_cons_iff.1 hbehind
    obtain ⟨time, last, rfl, htime, hlast⟩ := List.map_eq_append_iff.1 hrest
    rw [eq_of_upperChars_digits hdigits hdate,
      eq_of_upperChars_digits (isDigit_timeChars t) htime]
    exact ⟨letter, last, hletter, hlast, rfl⟩
  · rintro ⟨letter, last, hletter, rfl, rfl⟩
    rw [upperChars_append, upperChars_of_digits hdigits, upperChars, List.map_cons, hletter,
      ← upperChars, upperChars_append, upperChars_of_digits (isDigit_timeChars t)]

/-- The date-times that can be written are those whose date and time can be named. -/
theorem writable_dateTime_iff :
    Writable ⟨d, some t⟩ ↔ NamesDate d.chars d ∧ NamesTime t.chars t := by
  simp only [namesDate_iff, namesTime_iff, true_and]
  constructor
  · rintro ⟨⟨hin, hbounds⟩, hyear, hmidnight⟩
    exact ⟨⟨hin, hyear⟩, hbounds t rfl, hmidnight t rfl⟩
  · rintro ⟨⟨hin, hyear⟩, hbounds, hmidnight⟩
    refine ⟨⟨hin, ?_⟩, hyear, ?_⟩
    · rintro _ ⟨⟩
      exact hbounds
    · rintro _ ⟨⟩
      exact hmidnight

/-- Date-times are spelled with a letter T between the date and the time. -/
theorem spells_dateTime_iff : Spells text ⟨d, some t⟩ utc ↔
    (NamesDate d.chars d ∧ NamesTime t.chars t) ∧ ∃ letter last, letter.toUpper = 'T' ∧
      upperChars last = mark utc ∧ text = d.chars ++ letter :: (t.chars ++ last) := by
  have hchars : chars ⟨d, some t⟩ ++ mark utc = d.chars ++ 'T' :: (t.chars ++ mark utc) := by
    simp only [chars, List.append_assoc, List.cons_append]
  rw [← writable_dateTime_iff]
  constructor
  · rintro ⟨hwritable, -, hcapitals⟩
    rw [hchars, upperChars_eq_dateTime_iff hwritable.year.1] at hcapitals
    exact ⟨hwritable, hcapitals⟩
  · rintro ⟨hwritable, hspelled⟩
    refine ⟨hwritable, fun _ => rfl, ?_⟩
    rw [hchars, upperChars_eq_dateTime_iff hwritable.year.1]
    exact hspelled

/-- Dates are spelled by their digits, and are not marked. -/
theorem spells_date_iff : Spells text ⟨d, none⟩ utc ↔ NamesDate text d ∧ utc = false := by
  rw [namesDate_iff]
  constructor
  · rintro ⟨hwritable, htimed, hcapitals⟩
    obtain rfl : utc = false := by
      by_contra hutc
      exact absurd (htimed (Bool.not_eq_false _ ▸ hutc)) (by simp [hasTime])
    have hdate : upperChars text = d.chars := hcapitals.trans (List.append_nil _)
    exact ⟨⟨eq_of_upperChars_digits (isDigit_dateChars hwritable.year.1) hdate,
      hwritable.valid.1, hwritable.year⟩, rfl⟩
  · rintro ⟨⟨rfl, hin, hyear⟩, rfl⟩
    refine ⟨⟨⟨hin, by simp⟩, hyear, by simp⟩, by simp, ?_⟩
    rw [upperChars_of_digits (isDigit_dateChars hyear.1)]
    exact (List.append_nil _).symm

/-- **A text has the form of a date exactly when it spells the moment.** -/
theorem form_iff_spells : Form text m utc ↔ Spells text m utc := by
  constructor
  · rintro (hdate | ⟨hdate, htime, hletter⟩ | ⟨hdate, htime, hletter, hzulu⟩)
    · exact spells_date_iff.2 ⟨hdate, rfl⟩
    · obtain rfl := (namesDate_iff.1 hdate).1
      obtain rfl := (namesTime_iff.1 htime).1
      exact spells_dateTime_iff.2
        ⟨⟨hdate, htime⟩, _, [], hletter, rfl, by rw [List.append_nil]⟩
    · obtain rfl := (namesDate_iff.1 hdate).1
      obtain rfl := (namesTime_iff.1 htime).1
      exact spells_dateTime_iff.2
        ⟨⟨hdate, htime⟩, _, [_], hletter, congrArg (fun c => [c]) hzulu, rfl⟩
  · intro h
    obtain ⟨d, _ | t⟩ := m
    · obtain ⟨hdate, rfl⟩ := spells_date_iff.1 h
      exact .date hdate
    obtain ⟨⟨hdate, htime⟩, letter, last, hletter, hlast, rfl⟩ := spells_dateTime_iff.1 h
    cases utc with
    | false =>
      obtain rfl := List.map_eq_nil_iff.1 hlast
      rw [List.append_nil]
      exact .unmarked hdate htime hletter
    | true =>
      obtain ⟨zulu, rfl, hzulu⟩ := List.map_eq_singleton_iff.1 hlast
      exact .marked hdate htime hletter hzulu

/-! ### The order of what is written -/

theorem dateChars_lt_dateChars (hd : d.inCalendar = true) (hyd : 0 ≤ d.year ∧ d.year ≤ 9999)
    (he : e.inCalendar = true) (hye : 0 ≤ e.year ∧ e.year ≤ 9999) :
    d.chars < e.chars ↔ d < e := by
  obtain ⟨hchars, hyear, hmonth, hday⟩ := dateChars_eq hd hyd
  obtain ⟨hchars', hyear', hmonth', hday'⟩ := dateChars_eq he hye
  rw [hchars, hchars', append_lt_append_iff (hyear.trans hyear'.symm),
    append_lt_append_iff (hmonth.trans hmonth'.symm),
    Decimal.padded_lt_padded (hyear.trans hyear'.symm),
    Decimal.padded_lt_padded (hmonth.trans hmonth'.symm),
    Decimal.padded_lt_padded (hday.trans hday'.symm), Decimal.padded_inj, Decimal.padded_inj,
    Date.lt_iff]
  omega

theorem timeChars_lt_timeChars (ht : t.hour ≤ 24 ∧ t.minute ≤ 59 ∧ t.second ≤ 60)
    (hu : u.hour ≤ 24 ∧ u.minute ≤ 59 ∧ u.second ≤ 60) : t.chars < u.chars ↔ t < u := by
  obtain ⟨hhour, hminute, hsecond⟩ := timeChars_length ht
  obtain ⟨hhour', hminute', hsecond'⟩ := timeChars_length hu
  rw [TimeOfDay.chars, TimeOfDay.chars, List.append_assoc, List.append_assoc,
    append_lt_append_iff (hhour.trans hhour'.symm),
    append_lt_append_iff (hminute.trans hminute'.symm),
    Decimal.padded_lt_padded (hhour.trans hhour'.symm),
    Decimal.padded_lt_padded (hminute.trans hminute'.symm),
    Decimal.padded_lt_padded (hsecond.trans hsecond'.symm), Decimal.padded_inj,
    Decimal.padded_inj, TimeOfDay.lt_iff]

theorem dateChars_inj (hd : d.inCalendar = true) (hyd : 0 ≤ d.year ∧ d.year ≤ 9999)
    (he : e.inCalendar = true) (hye : 0 ≤ e.year ∧ e.year ≤ 9999) :
    d.chars = e.chars ↔ d = e := by
  refine ⟨fun h => ?_, congrArg _⟩
  have hlt := dateChars_lt_dateChars hd hyd he hye
  have hgt := dateChars_lt_dateChars he hye hd hyd
  rw [h] at hlt hgt
  rcases date_trichotomy d e with hd | heq | hd
  · exact absurd (hlt.2 hd) (List.lt_irrefl _)
  · exact heq
  · exact absurd (hgt.2 hd) (List.lt_irrefl _)

/-- **What is written is in the order of the moments.** -/
theorem chars_lt_chars (ha : a.Writable) (hb : b.Writable) : a.chars < b.chars ↔ a < b := by
  obtain ⟨d, time⟩ := a
  obtain ⟨e, time'⟩ := b
  have hdates := dateChars_lt_dateChars ha.valid.1 ha.year hb.valid.1 hb.year
  have hsame := dateChars_inj ha.valid.1 ha.year hb.valid.1 hb.year
  have hlength : d.chars.length = e.chars.length :=
    (dateChars_length ha.valid.1 ha.year).trans (dateChars_length hb.valid.1 hb.year).symm
  have hfront := fun rest rest' => @append_lt_append_iff Char _ _ _ rest rest' hlength
  -- what stands behind the dates is in the order of the times
  cases time with
  | none =>
    cases time' with
    | none =>
      show d.chars < e.chars ↔ _
      rw [hdates, lt_iff]
      simp [timeLt]
    | some t' =>
      show d.chars < e.chars ++ 'T' :: t'.chars ↔ _
      rw [← List.append_nil d.chars, hfront, hdates, hsame, lt_iff]
      simp [timeLt]
  | some t =>
    cases time' with
    | none =>
      show d.chars ++ 'T' :: t.chars < e.chars ↔ _
      rw [← List.append_nil e.chars, hfront, hdates, hsame, lt_iff]
      simp [timeLt]
    | some t' =>
      show d.chars ++ 'T' :: t.chars < e.chars ++ 'T' :: t'.chars ↔ _
      rw [hfront, hdates, hsame, List.cons_lt_cons_iff,
        timeChars_lt_timeChars (ha.valid.2 t rfl) (hb.valid.2 t' rfl), lt_iff]
      simp [timeLt]

theorem ascii_of_mem_chars {c : Char} (h : c ∈ m.chars) : c.toNat < 128 :=
  of_decide_eq_true (List.all_eq_true.1 (ascii_of_isToken (isToken_chars m)) c h)

/-! ### The encoding -/

/-- **Date texts are a faithful encoding that keeps the order.** The texts that are read are
those of the form of dates; their capitals are what is written of the moment, and the mark of
UTC if it was there. What is written of a valid moment of the years 0 to 9999, with no time
after the midnight that ends its day, is read as that moment, and with a Z behind a date-time
as the same in UTC. Of two such moments the earlier one is the one whose text comes first in
the order of bytes. -/
theorem texts_encode :
    (∀ text m utc, readMarked text = .ok (m, utc) ↔ Form (trimChars text.toList) m utc) ∧
      (∀ text m utc, readMarked text = .ok (m, utc) →
        upper (trim text) = m.text ++ if utc then "Z" else "") ∧
      (∀ m : Moment, m.Writable → readMarked m.text = .ok (m, false) ∧
        (m.hasTime = true → readMarked (m.text ++ "Z") = .ok (m, true))) ∧
      ∀ a b : Moment, a.Writable → b.Writable → (a < b ↔ bytes a.text < bytes b.text) := by
  refine ⟨?_, ?_, ?_, ?_⟩
  · intro text m utc
    rw [readMarked, readChars_eq_ok_iff_spells, form_iff_spells]
  · intro text m utc h
    have hspells := readChars_eq_ok_iff_spells.1 h
    apply String.toList_inj.1
    rw [upper, trim, String.toList_ofList, String.toList_ofList, hspells.capitals,
      String.toList_append, Moment.text, String.toList_ofList, mark]
    cases utc <;> rfl
  · intro m h
    constructor
    · have hread := readMarked_text h false (by simp)
      rwa [mark, if_neg (by decide), List.append_nil] at hread
    · intro htime
      have hread := readMarked_text h true fun _ => htime
      rwa [mark, if_pos rfl, String.ofList_append] at hread
  · intro a b ha hb
    rw [Moment.text, Moment.text,
      bytes_lt_bytes (fun _ => ascii_of_mem_chars) (fun _ => ascii_of_mem_chars),
      chars_lt_chars ha hb]

/-- The midnight that ends a leap day, marked in small letters between blanks; it comes
before the date that follows. -/
theorem texts_encode_leapDay :
    let midnight : Moment := atTime 2004 2 29 24 0 0
    let next : Moment := onDate 2004 3 1
    (readMarked " 20040229t240000z\n" = .ok (midnight, true) ∧
        upper (trim " 20040229t240000z\n") = midnight.text ++ "Z") ∧
      (midnight.Writable ∧ midnight.hasTime = true ∧
        readMarked (midnight.text ++ "Z") = .ok (midnight, true)) ∧
      next.Writable ∧ midnight < next ∧ bytes midnight.text < bytes next.text := by
  intro midnight next
  obtain ⟨-, hcapitals, hread, horder⟩ := texts_encode
  have hmidnight : midnight.Writable := ⟨by decide, by decide, by decide⟩
  have hnext : next.Writable := ⟨by decide, by decide, by decide⟩
  have htext : readMarked " 20040229t240000z\n" = .ok (midnight, true) :=
    eq_ok_of_toOption (by decide +kernel)
  have hlt : midnight < next := by decide
  exact ⟨⟨htext, hcapitals _ _ _ htext⟩, ⟨hmidnight, rfl, (hread _ hmidnight).2 rfl⟩, hnext, hlt,
    (horder _ _ hmidnight hnext).1 hlt⟩

end Moment

end Recurrence
