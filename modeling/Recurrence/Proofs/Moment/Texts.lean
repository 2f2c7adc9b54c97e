/-
# Moments as they are written

A valid moment of a year from 0 to 9999 is read from what is written of it, with
the mark of UTC behind it or without. All moments that are read are of this kind.

Key definitions: `Moment.Writable`.
Key theorems: `Moment.readChars_eq_ok_iff`, `Moment.readChars_chars`,
`Moment.writable_of_readChars`, `Moment.year_of_readChars`.
-/
import Recurrence.Moment.Read
import Recurrence.Proofs.Calendar.Days
import Recurrence.Proofs.Reading
import Recurrence.Proofs.Text.Fields

namespace Recurrence

open Calendar Reading Text

namespace Moment

/-- Whether a moment can be written in the places of a date text: it is valid, its
year has four digits, and no time follows the midnight that ends its day. -/
structure Writable (m : Moment) : Prop where
  valid : m.IsValid
  year : 0 ≤ m.date.year ∧ m.date.year ≤ 9999
  time : ∀ t ∈ m.time, t.hour = 24 → t.minute = 0 ∧ t.second = 0

variable {m : Moment}

/-! ### Digits in their places -/

/-- A number that stands at its place is read there. -/
theorem digitsAt_append {text before after : List Char} {start count n : Nat}
    (htext : text = before ++ (Decimal.padded count n ++ after)) (hstart : before.length = start)
    (hcount : (Decimal.padded count n).length = count) : digitsAt text start count = .ok n := by
  have hpart : (text.drop start).take count = Decimal.padded count n := by
    rw [htext, List.drop_left' hstart, List.take_left' hcount]
  simp only [digitsAt, hpart]
  rw [if_pos (List.all_eq_true.2 fun _ => Decimal.isDigit_of_mem_padded), Decimal.value_padded]

theorem lt_of_digitsAt {text : List Char} {start count n : Nat}
    (h : digitsAt text start count = .ok n) : n < 10 ^ count := by
  simp only [digitsAt] at h
  split at h
  · rename_i hall
    obtain rfl := Except.ok.inj h
    exact (Decimal.value_lt hall).trans_le
      (Nat.pow_le_pow_right (by decide) (List.length_take_le _ _))
  · exact absurd h (by simp)

/-- What is written of a date, in eight places. -/
theorem dateChars_eq {d : Date} (hd : d.inCalendar = true) (hy : 0 ≤ d.year ∧ d.year ≤ 9999) :
    d.chars = Decimal.padded 4 d.year.toNat ++
        (Decimal.padded 2 d.month ++ Decimal.padded 2 d.day) ∧
      (Decimal.padded 4 d.year.toNat).length = 4 ∧ (Decimal.padded 2 d.month).length = 2 ∧
      (Decimal.padded 2 d.day).length = 2 := by
  obtain ⟨-, -, hmonth, -, hday⟩ := (Date.inCalendar_iff d).1 hd
  have hlength := @daysInMonth_le (gregorianLeap d.year) d.month
  refine ⟨?_, Decimal.length_padded (by decide) (by omega),
    Decimal.length_padded (by decide) (by omega), Decimal.length_padded (by decide) (by omega)⟩
  rw [Date.chars, Decimal.year, if_neg (by omega), List.append_assoc,
    show d.year.natAbs = d.year.toNat by omega]

/-- The date is read from its places, whatever stands behind them. -/
theorem digitsAt_date {d : Date} (hd : d.inCalendar = true) (hy : 0 ≤ d.year ∧ d.year ≤ 9999)
    (after : List Char) :
    digitsAt (d.chars ++ after) 0 4 = .ok d.year.toNat ∧
      digitsAt (d.chars ++ after) 4 2 = .ok d.month ∧
      digitsAt (d.chars ++ after) 6 2 = .ok d.day := by
  obtain ⟨hchars, hyear, hmonth, hday⟩ := dateChars_eq hd hy
  rw [hchars, List.append_assoc, List.append_assoc]
  refine ⟨digitsAt_append (List.nil_append _).symm rfl hyear, digitsAt_append rfl hyear hmonth,
    digitsAt_append (List.append_assoc _ _ _).symm ?_ hday⟩
  rw [List.length_append, hyear, hmonth]

/-- What is written of a time, in six places. -/
theorem timeChars_length {t : TimeOfDay} (ht : t.hour ≤ 24 ∧ t.minute ≤ 59 ∧ t.second ≤ 60) :
    (Decimal.padded 2 t.hour).length = 2 ∧ (Decimal.padded 2 t.minute).length = 2 ∧
      (Decimal.padded 2 t.second).length = 2 :=
  ⟨Decimal.length_padded (by decide) (by omega), Decimal.length_padded (by decide) (by omega),
    Decimal.length_padded (by decide) (by omega)⟩

/-- The time is read from its places behind a date, whatever stands behind them. -/
theorem digitsAt_time {date after : List Char} {t : TimeOfDay} (hdate : date.length = 8)
    (ht : t.hour ≤ 24 ∧ t.minute ≤ 59 ∧ t.second ≤ 60) :
    digitsAt (date ++ 'T' :: (t.chars ++ after)) 9 2 = .ok t.hour ∧
      digitsAt (date ++ 'T' :: (t.chars ++ after)) 11 2 = .ok t.minute ∧
      digitsAt (date ++ 'T' :: (t.chars ++ after)) 13 2 = .ok t.second := by
  obtain ⟨hhour, hminute, hsecond⟩ := timeChars_length ht
  have htext : date ++ 'T' :: (t.chars ++ after) = (date ++ ['T']) ++ (Decimal.padded 2 t.hour ++
      (Decimal.padded 2 t.minute ++ (Decimal.padded 2 t.second ++ after))) := by
    simp [TimeOfDay.chars]
  have hbefore : (date ++ ['T']).length = 9 := by
    rw [List.length_append, hdate]
    rfl
  rw [htext]
  refine ⟨digitsAt_append rfl hbefore hhour,
    digitsAt_append (List.append_assoc _ _ _).symm ?_ hminute,
    digitsAt_append ((congrArg _ (List.append_assoc _ _ _).symm).trans
      (List.append_assoc _ _ _).symm) ?_ hsecond⟩
  · rw [List.length_append, hbefore, hhour]
  · simp only [List.length_append, hdate, hhour, hminute, List.length_singleton]

/-! ### Reading what is written -/

theorem dateChars_length {d : Date} (hd : d.inCalendar = true) (hy : 0 ≤ d.year ∧ d.year ≤ 9999) :
    d.chars.length = 8 := by
  obtain ⟨hchars, hyear, hmonth, hday⟩ := dateChars_eq hd hy
  rw [hchars, List.length_append, List.length_append, hyear, hmonth, hday]

theorem isToken_dateChars (d : Date) : IsToken d.chars := by
  refine ((?_ : IsToken (Decimal.year d.year)).append (IsToken.padded 2 _)).append
    (IsToken.padded 2 _)
  unfold Decimal.year
  split
  · exact (show IsToken ['-'] by decide).append (IsToken.padded 3 _)
  · exact IsToken.padded 4 _

theorem isToken_timeChars (t : TimeOfDay) : IsToken t.chars :=
  ((IsToken.padded 2 _).append (IsToken.padded 2 _)).append (IsToken.padded 2 _)

/-- What is written of a moment is a token. -/
theorem isToken_chars (m : Moment) : IsToken m.chars := by
  unfold chars
  split
  · exact isToken_dateChars _
  · exact (isToken_dateChars _).append
      ((show IsToken ['T'] by decide).append (isToken_timeChars _))

/-- Tokens consist of characters of ASCII. -/
theorem ascii_of_isToken {text : List Char} (h : IsToken text) :
    text.all (·.toNat < 128) = true := by
  refine List.all_eq_true.2 fun c hc => decide_eq_true ?_
  have := isNameChar_iff.1 (h.chars c hc)
  omega

/-- **When a date text is read**, and as what. -/
theorem readChars_eq_ok_iff {text : List Char} {utc : Bool} :
    readChars text = .ok (m, utc) ↔ text.all (·.toNat < 128) = true ∧
      ∃ timed marked, shape? text = some (timed, marked) ∧
      ∃ year, digitsAt text 0 4 = .ok year ∧ ∃ month, digitsAt text 4 2 = .ok month ∧
      ∃ day, digitsAt text 6 2 = .ok day ∧ (⟨year, month, day⟩ : Date).inCalendar = true ∧
        if timed = true then
          ∃ hour, digitsAt text 9 2 = .ok hour ∧ ∃ minute, digitsAt text 11 2 = .ok minute ∧
          ∃ second, digitsAt text 13 2 = .ok second ∧
            ¬ (hour > 24 ∨ minute > 59 ∨ second > 60 ∨ hour = 24 ∧ (minute ≠ 0 ∨ second ≠ 0)) ∧
            ⟨⟨year, month, day⟩, some (.of hour minute second)⟩ = m ∧ marked = utc
        else ⟨⟨year, month, day⟩, none⟩ = m ∧ false = utc := by
  have hshape : ∀ p : Bool × Bool, ((shape? text).map Except.ok).getD
      (throw (Fault.dateShape (String.ofList text)) : Except Fault (Bool × Bool)) = .ok p ↔
        shape? text = some p := by
    intro p
    cases shape? text <;> simp [throw_ne_ok]
  unfold readChars
  simp only [bind_eq_ok, ite_else_throw_eq_ok, hshape, Prod.exists]
  refine and_congr_right fun _ => exists_congr fun timed => exists_congr fun marked =>
    and_congr_right fun _ => ?_
  cases timed with
  | false => simp only [Bool.false_eq_true, if_false, pure_eq_ok, Prod.mk.injEq]
  | true => simp only [if_true, bind_eq_ok, ite_throw_eq_ok, pure_eq_ok, Prod.mk.injEq]

theorem date_toNat {d : Date} (hy : 0 ≤ d.year) :
    (⟨d.year.toNat, d.month, d.day⟩ : Date) = d := by
  rw [Int.toNat_of_nonneg hy]

theorem readChars_date {d : Date} (hd : d.inCalendar = true) (hy : 0 ≤ d.year ∧ d.year ≤ 9999) :
    readChars d.chars = .ok (⟨d, none⟩, false) := by
  have hplaces := digitsAt_date hd hy []
  rw [List.append_nil] at hplaces
  obtain ⟨hyear, hmonth, hday⟩ := hplaces
  refine readChars_eq_ok_iff.2 ⟨ascii_of_isToken (isToken_dateChars d), false, false, ?_,
    _, hyear, _, hmonth, _, hday, ?_⟩
  · rw [shape?, if_pos (dateChars_length hd hy)]
  · rw [date_toNat hy.1]
    exact ⟨hd, rfl, rfl⟩

/-- The mark of UTC, if there is one. -/
def mark (utc : Bool) : List Char :=
  if utc then ['Z'] else []

theorem isToken_marked (m : Moment) (utc : Bool) : IsToken (m.chars ++ mark utc) := by
  cases utc with
  | false => exact (List.append_nil _).symm ▸ isToken_chars m
  | true => exact (isToken_chars m).append (show IsToken ['Z'] by decide)

theorem shape?_time {date time : List Char} (hdate : date.length = 8) (htime : time.length = 6)
    (utc : Bool) : shape? (date ++ 'T' :: (time ++ mark utc)) = some (true, utc) := by
  have hT : (date ++ 'T' :: (time ++ mark utc))[8]? = some 'T' := by
    rw [List.getElem?_append_right (by omega), hdate]
    rfl
  have hZ : (date ++ 'T' :: (time ++ mark utc))[15]? = (mark utc)[0]? := by
    rw [List.getElem?_append_right (by omega), hdate, List.getElem?_cons_succ,
      List.getElem?_append_right (by omega), htime]
  have hlength : (date ++ 'T' :: (time ++ mark utc)).length = 15 + (mark utc).length := by
    simp only [List.length_append, List.length_cons, hdate, htime]
    omega
  unfold shape?
  rw [hT, hZ, hlength]
  cases utc <;> decide

theorem of_eq_self {t : TimeOfDay} (ht : t.hour ≤ 24)
    (hmidnight : t.hour = 24 → t.minute = 0 ∧ t.second = 0) :
    TimeOfDay.of t.hour t.minute t.second = t := by
  obtain ⟨hour, minute, second⟩ := t
  unfold TimeOfDay.of
  split
  · obtain rfl : hour = 24 := by simp only at *; omega
    obtain ⟨rfl, rfl⟩ := hmidnight rfl
    rfl
  · rfl

/-- A date-time is read from what is written of it and the mark of UTC. -/
theorem readChars_time {d : Date} {t : TimeOfDay} (h : Writable ⟨d, some t⟩) (utc : Bool) :
    readChars (chars ⟨d, some t⟩ ++ mark utc) = .ok (⟨d, some t⟩, utc) := by
  have hlength := dateChars_length h.valid.1 h.year
  have htime := h.valid.2 t rfl
  have hmidnight := h.time t rfl
  have htext : chars ⟨d, some t⟩ ++ mark utc = d.chars ++ 'T' :: (t.chars ++ mark utc) := by
    simp only [chars, List.append_assoc, List.cons_append]
  have hascii := ascii_of_isToken (isToken_marked ⟨d, some t⟩ utc)
  obtain ⟨hyear, hmonth, hday⟩ := digitsAt_date h.valid.1 h.year ('T' :: (t.chars ++ mark utc))
  obtain ⟨hhour, hminute, hsecond⟩ := @digitsAt_time d.chars (mark utc) t hlength htime
  have hsix : t.chars.length = 6 := by
    obtain ⟨hh, hm, hs⟩ := timeChars_length htime
    rw [TimeOfDay.chars, List.length_append, List.length_append, hh, hm, hs]
  rw [htext] at hascii ⊢
  refine readChars_eq_ok_iff.2 ⟨hascii, true, utc, shape?_time hlength hsix utc,
    _, hyear, _, hmonth, _, hday, ?_⟩
  rw [date_toNat h.year.1, if_pos rfl]
  exact ⟨h.valid.1, _, hhour, _, hminute, _, hsecond, by omega,
    by rw [of_eq_self htime.1 hmidnight], rfl⟩

/-- **A moment is read from what is written of it**, and a date-time with the mark of
UTC behind it as well. -/
theorem readChars_chars (h : m.Writable) (utc : Bool) (hutc : utc = true → m.hasTime = true) :
    readChars (m.chars ++ mark utc) = .ok (m, utc) := by
  obtain ⟨d, _ | t⟩ := m
  · obtain rfl : utc = false := by
      cases utc with
      | false => rfl
      | true => exact absurd (hutc rfl) (by simp [hasTime])
    exact (congrArg readChars (List.append_nil _)).trans (readChars_date h.valid.1 h.year)
  · exact readChars_time h utc

theorem readMarked_text (h : m.Writable) (utc : Bool) (hutc : utc = true → m.hasTime = true) :
    readMarked (String.ofList (m.chars ++ mark utc)) = .ok (m, utc) := by
  rw [readMarked, String.toList_ofList, (isToken_marked m utc).trim, readChars_chars h utc hutc]

/-- **What is read can be written**, and only a date-time is marked as UTC. -/
theorem writable_of_readChars {text : List Char} {utc : Bool} (h : readChars text = .ok (m, utc)) :
    m.Writable ∧ (utc = true → m.hasTime = true) := by
  obtain ⟨-, timed, marked, -, year, hyear, month, -, day, -, hdate, h⟩ := readChars_eq_ok_iff.1 h
  have hyear := lt_of_digitsAt hyear
  cases timed with
  | false =>
    obtain ⟨rfl, rfl⟩ := h
    exact ⟨⟨⟨hdate, by simp⟩, by simp only; omega, by simp⟩, by simp⟩
  | true =>
    obtain ⟨hour, -, minute, -, second, -, hbounds, rfl, rfl⟩ := h
    have htime : ∀ t, TimeOfDay.of hour minute second = t →
        (t.hour ≤ 24 ∧ t.minute ≤ 59 ∧ t.second ≤ 60) ∧
          (t.hour = 24 → t.minute = 0 ∧ t.second = 0) := by
      rintro t rfl
      unfold TimeOfDay.of
      split
      · exact ⟨by decide, fun _ => ⟨rfl, rfl⟩⟩
      · simp only
        omega
    exact ⟨⟨⟨hdate, fun t ht => (htime t (Option.some.inj ht)).1⟩, by simp only; omega,
      fun t ht => (htime t (Option.some.inj ht)).2⟩, fun _ => rfl⟩

/-! ### Years of more or fewer digits -/

theorem of_mem_chars {c : Char} (h : c ∈ m.chars) : c.isDigit = true ∨ c = '-' ∨ c = 'T' := by
  have hdate : ∀ {d : Date}, c ∈ d.chars → c.isDigit = true ∨ c = '-' ∨ c = 'T' := by
    intro d hc
    rw [Date.chars, List.mem_append, List.mem_append] at hc
    rcases hc with (hc | hc) | hc
    · unfold Decimal.year at hc
      split at hc
      · rcases List.mem_cons.1 hc with rfl | hc
        · exact Or.inr (Or.inl rfl)
        · exact Or.inl (Decimal.isDigit_of_mem_padded hc)
      · exact Or.inl (Decimal.isDigit_of_mem_padded hc)
    · exact Or.inl (Decimal.isDigit_of_mem_padded hc)
    · exact Or.inl (Decimal.isDigit_of_mem_padded hc)
  unfold chars at h
  split at h
  · exact hdate h
  · rename_i t _
    rw [List.mem_append, List.mem_cons, TimeOfDay.chars, List.mem_append, List.mem_append] at h
    rcases h with h | rfl | (h | h) | h
    · exact hdate h
    · exact Or.inr (Or.inr rfl)
    · exact Or.inl (Decimal.isDigit_of_mem_padded h)
    · exact Or.inl (Decimal.isDigit_of_mem_padded h)
    · exact Or.inl (Decimal.isDigit_of_mem_padded h)

theorem isDigit_of_digitsAt {text rest : List Char} {c : Char} {n : Nat} (htext : text = c :: rest)
    (h : digitsAt text 0 4 = .ok n) : c.isDigit = true := by
  subst htext
  simp only [digitsAt, List.drop_zero, List.take_succ_cons, List.all_cons, Bool.and_eq_true] at h
  by_contra hc
  rw [if_neg fun hall => hc hall.1] at h
  exact absurd h (by simp)

/-- A text of a date has at most 16 characters, the last of them the mark of UTC. -/
theorem length_of_shape? {text : List Char} {p : Bool × Bool} (h : shape? text = some p) :
    text.length ≤ 15 ∨ text.length = 16 ∧ ∃ c ∈ text, c.toUpper = 'Z' := by
  unfold shape? at h
  dsimp only at h
  split_ifs at h with hdate htime hutc
  · omega
  · rw [Bool.and_eq_true, decide_eq_true_eq] at htime
    omega
  · simp only [Bool.and_eq_true, decide_eq_true_eq, beq_iff_eq, Option.map_eq_some_iff] at hutc
    obtain ⟨c, hc, hmark⟩ := hutc.2
    exact Or.inr ⟨hutc.1.1, c, List.mem_of_getElem? hc, hmark⟩

/-- **A date-time is read only when its year has four digits.** -/
theorem year_of_readChars {d : Date} {t : TimeOfDay} {m' : Moment} {utc : Bool}
    (h : readChars (chars ⟨d, some t⟩) = .ok (m', utc)) : 0 ≤ d.year ∧ d.year ≤ 9999 := by
  obtain ⟨-, timed, marked, hshape, year, hyear, -⟩ := readChars_eq_ok_iff.1 h
  have hunmarked : ∀ c ∈ chars ⟨d, some t⟩, c.toUpper ≠ 'Z' := by
    intro c hc heq
    rcases of_mem_chars hc with hdigit | rfl | rfl
    · rw [toUpper_eq_self (Or.inr (Or.inl hdigit))] at heq
      subst heq
      exact absurd hdigit (by decide)
    · exact absurd heq (by decide)
    · exact absurd heq (by decide)
  have hlength : (chars ⟨d, some t⟩).length ≤ 15 :=
    (length_of_shape? hshape).resolve_right fun ⟨_, c, hc, heq⟩ => hunmarked c hc heq
  constructor
  · by_contra hneg
    have htext : chars ⟨d, some t⟩ = '-' :: (Decimal.padded 3 d.year.natAbs ++
        (Decimal.padded 2 d.month ++ (Decimal.padded 2 d.day ++ 'T' :: t.chars))) := by
      simp only [chars, Date.chars, Decimal.year, if_pos (not_le.1 hneg), List.append_assoc,
        List.cons_append]
    exact absurd (isDigit_of_digitsAt htext hyear) (by decide)
  · by_contra hbig
    rw [not_le] at hbig
    have hyears : ¬ (Nat.toDigits 10 d.year.natAbs).length ≤ 4 := by
      rw [Nat.length_toDigits_le_iff (b := 10) (by decide) (by decide)]
      omega
    have hplaces : ∀ places n, places ≤ (Decimal.padded places n).length := by
      intro places n
      simp only [Decimal.padded, List.length_append, List.length_replicate]
      omega
    have hyearPlaces : 5 ≤ (Decimal.padded 4 d.year.natAbs).length := by
      simp only [Decimal.padded, List.length_append, List.length_replicate]
      omega
    have := hplaces 2 d.month
    have := hplaces 2 d.day
    have := hplaces 2 t.hour
    have := hplaces 2 t.minute
    have := hplaces 2 t.second
    have hpositive : ¬ d.year < 0 := by omega
    simp only [chars, Date.chars, TimeOfDay.chars, Decimal.year, if_neg hpositive,
      List.length_append, List.length_cons] at hlength
    omega

end Moment

end Recurrence
