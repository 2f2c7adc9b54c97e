/-
# The days of the calendar

The dates of the calendar and the numbers of its days correspond to each other:
a date's number is found again by the year that holds it and the month within
that year, and the numbers grow as the dates do.

Key theorems: `yearOfDay_eq`, `Date.dayNumber_eq`, `Date.dayOfYear_eq`, `Date.days_lt_days`,
`Date.ofDays_days`, `Date.days_ofDays`, `Date.ofDays_lt_ofDays`.
-/
import Recurrence.Calendar.Weekday
import Recurrence.Proofs.Order

namespace Recurrence

open Calendar

/-! ### Years -/

namespace Calendar

theorem yearStart_mono {y y' : Int} (h : y ≤ y') : yearStart y ≤ yearStart y' := by
  unfold yearStart
  omega

theorem yearStart_add_le {y y' : Int} (h : y < y') : yearStart y + 365 ≤ yearStart y' := by
  unfold yearStart
  omega

/-- The year found for a day holds it. -/
theorem yearOfDay_spec (n : Int) :
    yearStart (yearOfDay n) ≤ n ∧ n < yearStart (yearOfDay n + 1) := by
  have hlow : yearStart (1970 + 400 * n / 146097 - 1) ≤ n := by
    unfold yearStart
    omega
  have hhigh : n < yearStart (1970 + 400 * n / 146097 + 1 + 1) := by
    unfold yearStart
    omega
  simp only [yearOfDay]
  split
  · rename_i h
    exact ⟨hlow, by rwa [Int.sub_add_cancel]⟩
  · rename_i h
    split
    · rename_i h'
      exact ⟨h', hhigh⟩
    · rename_i h'
      exact ⟨Int.not_lt.1 h, Int.not_le.1 h'⟩

theorem yearOfDay_eq {n y : Int} (h : yearStart y ≤ n) (h' : n < yearStart (y + 1)) :
    yearOfDay n = y := by
  obtain ⟨hl, hh⟩ := yearOfDay_spec n
  rcases lt_trichotomy (yearOfDay n) y with hlt | he | hlt
  · exact absurd (yearStart_mono (show yearOfDay n + 1 ≤ y from hlt)) (by omega)
  · exact he
  · exact absurd (yearStart_mono (show y + 1 ≤ yearOfDay n from hlt)) (by omega)

theorem yearOfDay_eq_iff (n y : Int) :
    yearOfDay n = y ↔ yearStart y ≤ n ∧ n < yearStart (y + 1) := by
  constructor
  · rintro rfl
    exact yearOfDay_spec n
  · exact fun h => yearOfDay_eq h.1 h.2

theorem yearLength_of_hasYear {y : Int} (h : hasYear y = true) :
    yearStart (y + 1) = yearStart y + yearLength y := by
  rw [yearStart_succ, yearLength, isLeapYear, h, Bool.true_and]
  split <;> rfl

theorem hasYear_iff (y : Int) : hasYear y = true ↔ firstYear ≤ y ∧ y ≤ lastYear := by
  simp only [hasYear, Bool.and_eq_true, decide_eq_true_eq]

/-- The years that dates are written with lie inside the calendar. -/
theorem hasYear_of_bounds {y : Int} (h : -200000 ≤ y) (h' : y ≤ 200000) : hasYear y = true := by
  rw [hasYear_iff, firstYear, lastYear]
  omega

theorem firstDay_le_of_hasYear {y : Int} (h : hasYear y = true) : firstDay ≤ yearStart y := by
  exact yearStart_mono ((hasYear_iff y).1 h).1

theorem le_lastDay_of_hasYear {y : Int} (h : hasYear y = true) : yearStart (y + 1) - 1 ≤ lastDay := by
  have := yearStart_mono (Int.add_le_add_right ((hasYear_iff y).1 h).2 1)
  unfold lastDay
  omega

/-! ### Months -/

theorem daysInMonth_pos_iff (leap : Bool) (m : Nat) : 0 < daysInMonth leap m ↔ 1 ≤ m ∧ m ≤ 12 := by
  constructor
  · intro h
    by_contra hm
    have : m = 0 ∨ 12 < m := by omega
    rcases this with rfl | hm
    · simp [daysInMonth] at h
    · have : daysInMonth leap m = 0 := by
        unfold daysInMonth
        split <;> omega
      omega
  · rintro ⟨h, h'⟩
    have : ∀ leap, ∀ m ≤ 12, 1 ≤ m → 0 < daysInMonth leap m := by decide
    exact this leap m h' h

theorem daysInMonth_le (leap : Bool) {m : Nat} : daysInMonth leap m ≤ 31 := by
  unfold daysInMonth
  split <;> first | omega | (split <;> omega)

/-- A month begins where the months before it end. -/
theorem daysBefore_add_le (leap : Bool) {m m' : Nat} (h : 1 ≤ m) (hm : m < m') (hm' : m' ≤ 12) :
    daysBefore leap m + daysInMonth leap m ≤ daysBefore leap m' := by
  have : ∀ leap, ∀ m' ≤ 12, ∀ m < m', 1 ≤ m →
      daysBefore leap m + daysInMonth leap m ≤ daysBefore leap m' := by decide
  exact this leap m' hm' m hm h

theorem daysBefore_add_le_year (leap : Bool) {m : Nat} (h : 1 ≤ m) (hm : m ≤ 12) :
    daysBefore leap m + daysInMonth leap m ≤ if leap then 366 else 365 := by
  have : ∀ leap, ∀ m ≤ 12, 1 ≤ m →
      daysBefore leap m + daysInMonth leap m ≤ if leap then 366 else 365 := by decide
  exact this leap m hm h

theorem monthOfDay_spec (leap : Bool) {n : Nat} (h : n < if leap then 366 else 365) :
    1 ≤ monthOfDay leap n ∧ monthOfDay leap n ≤ 12 ∧ daysBefore leap (monthOfDay leap n) ≤ n ∧
      n < daysBefore leap (monthOfDay leap n) + daysInMonth leap (monthOfDay leap n) := by
  have : ∀ leap : Bool, ∀ n < if leap then 366 else 365,
      1 ≤ monthOfDay leap n ∧ monthOfDay leap n ≤ 12 ∧ daysBefore leap (monthOfDay leap n) ≤ n ∧
        n < daysBefore leap (monthOfDay leap n) + daysInMonth leap (monthOfDay leap n) := by
    decide +kernel
  exact this leap n h

end Calendar

/-! ### Dates -/

namespace Date

theorem inCalendar_iff (d : Date) : d.inCalendar = true ↔ hasYear d.year = true ∧
    1 ≤ d.month ∧ d.month ≤ 12 ∧ 1 ≤ d.day ∧ d.day ≤ daysInMonth (gregorianLeap d.year) d.month := by
  simp only [inCalendar, Bool.and_eq_true, decide_eq_true_eq]
  unfold monthLength
  have hpos := daysInMonth_pos_iff (gregorianLeap d.year) d.month
  constructor
  · rintro ⟨h, h'⟩
    split at h'
    · rename_i hy
      have := hpos.1 (by omega)
      exact ⟨hy, this.1, this.2, h, h'⟩
    · omega
  · rintro ⟨hy, -, -, h, h'⟩
    exact ⟨h, by rwa [if_pos hy]⟩

/-- The first day of a year of the calendar. -/
theorem inCalendar_newYear {y : Int} (h : hasYear y = true) :
    (⟨y, 1, 1⟩ : Date).inCalendar = true := by
  rw [inCalendar_iff]
  exact ⟨h, Nat.le_refl 1, by simp, Nat.le_refl 1, by simp [daysInMonth]⟩

theorem days_newYear (y : Int) : (⟨y, 1, 1⟩ : Date).days = yearStart y := by
  simp [days, daysBefore]

theorem days_eq (y : Int) (m d : Nat) : (⟨y, m, d⟩ : Date).days = (⟨y, m, 1⟩ : Date).days + (d - 1) := by
  simp only [days]
  omega

/-- A date lies in its year. -/
theorem days_bounds {d : Date} (h : d.inCalendar = true) :
    yearStart d.year ≤ d.days ∧ d.days < yearStart (d.year + 1) := by
  obtain ⟨-, hm, hm', hd, hd'⟩ := (inCalendar_iff d).1 h
  have := daysBefore_add_le_year (gregorianLeap d.year) hm hm'
  rw [yearStart_succ]
  unfold days
  constructor
  · omega
  · split at this <;> split <;> omega

theorem yearOfDay_days {d : Date} (h : d.inCalendar = true) : yearOfDay d.days = d.year :=
  yearOfDay_eq (days_bounds h).1 (days_bounds h).2

theorem days_mem_calendar {d : Date} (h : d.inCalendar = true) :
    firstDay ≤ d.days ∧ d.days ≤ lastDay := by
  have hy := ((inCalendar_iff d).1 h).1
  have := firstDay_le_of_hasYear hy
  have := le_lastDay_of_hasYear hy
  have := days_bounds h
  omega

/-- The number of the day of an existing date is what plain counting gives. -/
theorem dayNumber_eq {d : Date} (h : d.inCalendar = true) : d.dayNumber = d.days := by
  obtain ⟨hy, hm, hm', -⟩ := (inCalendar_iff d).1 h
  have hmonth : d.monthStart = (⟨d.year, d.month, 1⟩ : Date).days := by
    have : min (max d.month 1) 12 = d.month := by omega
    simp only [monthStart, hy, if_true, this]
  obtain ⟨y, m, k⟩ := d
  simp only [dayNumber, hmonth, ← days_eq]
  rw [if_pos (days_mem_calendar h)]

theorem dayOfYear_eq {d : Date} (h : d.inCalendar = true) :
    d.dayOfYear = d.days - yearStart d.year := by
  rw [dayOfYear, dayNumber_eq h, yearOfDay_days h]

/-- Later dates have greater numbers. -/
theorem days_lt_of_lt {d e : Date} (hd : d.inCalendar = true) (he : e.inCalendar = true)
    (h : d < e) : d.days < e.days := by
  rcases h with hy | ⟨hy, h⟩
  · have := yearStart_mono (show d.year + 1 ≤ e.year from hy)
    have := days_bounds hd
    have := days_bounds he
    omega
  · obtain ⟨-, hm, hm', hk, hk'⟩ := (inCalendar_iff d).1 hd
    obtain ⟨-, hem, hem', hek, hek'⟩ := (inCalendar_iff e).1 he
    rcases h with hlt | ⟨heq, hlt⟩
    · have := daysBefore_add_le (gregorianLeap e.year) hm hlt hem'
      rw [hy] at hk'
      simp only [days, hy]
      omega
    · simp only [days, hy, heq]
      omega

theorem days_lt_days {d e : Date} (hd : d.inCalendar = true) (he : e.inCalendar = true) :
    d.days < e.days ↔ d < e := by
  refine ⟨fun h => ?_, days_lt_of_lt hd he⟩
  rcases Moment.date_trichotomy d e with hlt | rfl | hlt
  · exact hlt
  · omega
  · have := days_lt_of_lt he hd hlt
    omega

theorem days_inj {d e : Date} (hd : d.inCalendar = true) (he : e.inCalendar = true)
    (h : d.days = e.days) : d = e := by
  rcases Moment.date_trichotomy d e with hlt | rfl | hlt
  · have := days_lt_of_lt hd he hlt
    omega
  · rfl
  · have := days_lt_of_lt he hd hlt
    omega

/-! ### Dates of day numbers -/

/-- A day lies in the month that is found for it. -/
theorem month_ofDays (n : Int) :
    let leap := gregorianLeap (ofDays n).year
    let dayOfYear := (n - yearStart (ofDays n).year).toNat
    1 ≤ (ofDays n).month ∧ (ofDays n).month ≤ 12 ∧
      daysBefore leap (ofDays n).month ≤ dayOfYear ∧
      dayOfYear < daysBefore leap (ofDays n).month + daysInMonth leap (ofDays n).month := by
  refine monthOfDay_spec _ ?_
  obtain ⟨hl, hh⟩ := yearOfDay_spec n
  rw [yearStart_succ] at hh
  show (n - yearStart (yearOfDay n)).toNat < if gregorianLeap (yearOfDay n) then 366 else 365
  split at hh <;> split <;> omega

theorem ofDays_spec {n : Int} (h : firstDay ≤ n) (h' : n ≤ lastDay) :
    (ofDays n).inCalendar = true ∧ (ofDays n).days = n := by
  obtain ⟨hl, hh⟩ := yearOfDay_spec n
  have hyear : hasYear (yearOfDay n) = true := by
    have hfirst : ¬ yearOfDay n < firstYear := by
      intro hlt
      have := yearStart_mono (show yearOfDay n + 1 ≤ firstYear from hlt)
      unfold firstDay at h
      omega
    have hlast : ¬ lastYear < yearOfDay n := by
      intro hlt
      have := yearStart_mono (show lastYear + 1 ≤ yearOfDay n from hlt)
      unfold lastDay at h'
      omega
    rw [hasYear_iff]
    omega
  obtain ⟨hm, hm', hb, hb'⟩ := month_ofDays n
  simp only [ofDays] at hm hm' hb hb'
  constructor
  · rw [inCalendar_iff]
    exact ⟨hyear, hm, hm', by simp only [ofDays]; omega, by simp only [ofDays]; omega⟩
  · simp only [days, ofDays]
    omega

/-- Later days have later dates, also outside the calendar. -/
theorem ofDays_lt_ofDays {n m : Int} (h : n < m) : ofDays n < ofDays m := by
  obtain ⟨hn, hn'⟩ := yearOfDay_spec n
  obtain ⟨hm, hm'⟩ := yearOfDay_spec m
  have hmonth := month_ofDays n
  have hmonth' := month_ofDays m
  rw [lt_iff]
  simp only [ofDays] at *
  rcases lt_trichotomy (yearOfDay n) (yearOfDay m) with hy | hy | hy
  · exact Or.inl hy
  · rw [hy] at hn hmonth ⊢
    generalize gregorianLeap (yearOfDay m) = leap at *
    generalize monthOfDay leap (n - yearStart (yearOfDay m)).toNat = i at *
    generalize monthOfDay leap (m - yearStart (yearOfDay m)).toNat = j at *
    rcases lt_trichotomy i j with hij | rfl | hij
    · exact Or.inr ⟨rfl, Or.inl hij⟩
    · exact Or.inr ⟨rfl, Or.inr ⟨rfl, by omega⟩⟩
    · have := daysBefore_add_le leap hmonth'.1 hij hmonth.2.1
      omega
  · have := yearStart_mono (show yearOfDay m + 1 ≤ yearOfDay n from hy)
    omega

theorem days_ofDays {n : Int} (h : firstDay ≤ n) (h' : n ≤ lastDay) : (ofDays n).days = n :=
  (ofDays_spec h h').2

theorem inCalendar_ofDays {n : Int} (h : firstDay ≤ n) (h' : n ≤ lastDay) :
    (ofDays n).inCalendar = true :=
  (ofDays_spec h h').1

theorem ofDays_days {d : Date} (h : d.inCalendar = true) : ofDays d.days = d := by
  obtain ⟨hf, hl⟩ := days_mem_calendar h
  exact days_inj (inCalendar_ofDays hf hl) h (days_ofDays hf hl)

theorem ofDayNumber_eq {n : Int} (h : firstDay ≤ n) (h' : n ≤ lastDay) : ofDayNumber n = ofDays n := by
  rw [ofDayNumber, if_pos ⟨h, h'⟩]

end Date

end Recurrence
