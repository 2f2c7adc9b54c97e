/-
# Day numbers count the calendar

The dates of the calendar follow one another day by day, month by month and year
by year (`Date.tomorrow`). Day numbers go along with them from 1 January 1970 on,
forwards and backwards, to both ends of the calendar: they are the same order, and
either is found from the other. Week starts are counted back on the numbers.

Key definitions: `Date.tomorrow`, `Calendar.CountsDays`.
Key theorems: `Date.days_tomorrow`, `Date.startOfWeek_near`, `Date.countsDays`.
-/
import Recurrence.Proofs.Calendar.Weeks

namespace Recurrence

open Calendar

/-! ### The next date -/

namespace Calendar

/-- The next month begins where a month ends. -/
theorem daysBefore_succ (leap : Bool) {m : Nat} (h : 1 ≤ m) (h' : m < 12) :
    daysBefore leap (m + 1) = daysBefore leap m + daysInMonth leap m := by
  have : ∀ leap, ∀ m < 12, 1 ≤ m →
      daysBefore leap (m + 1) = daysBefore leap m + daysInMonth leap m := by decide
  exact this leap m h' h

end Calendar

namespace Date

/-- The date after a date: the next day of its month, or else the first of the
next month or of the next year. -/
def tomorrow (d : Date) : Date :=
  if d.day < monthLength d.year d.month then { d with day := d.day + 1 }
  else if d.month < 12 then ⟨d.year, d.month + 1, 1⟩
  else ⟨d.year + 1, 1, 1⟩

/-- The first date of the calendar. -/
def earliest : Date := ⟨firstYear, 1, 1⟩

/-- The last date of the calendar. -/
def latest : Date := ⟨lastYear, 12, 31⟩

variable {d : Date}

/-- The next date stays in the month, opens the next month or opens the next year. -/
theorem tomorrow_cases (h : d.inCalendar = true) :
    (d.day < daysInMonth (gregorianLeap d.year) d.month ∧
        d.tomorrow = ⟨d.year, d.month, d.day + 1⟩) ∨
      (d.month < 12 ∧ d.day = daysInMonth (gregorianLeap d.year) d.month ∧
        d.tomorrow = ⟨d.year, d.month + 1, 1⟩) ∨
      (d.month = 12 ∧ d.day = 31 ∧ d.tomorrow = ⟨d.year + 1, 1, 1⟩) := by
  obtain ⟨hyear, -, hm', -, hd'⟩ := (inCalendar_iff d).1 h
  rw [tomorrow, monthLength, if_pos hyear]
  by_cases hday : d.day < daysInMonth (gregorianLeap d.year) d.month
  · rw [if_pos hday]
    exact Or.inl ⟨hday, rfl⟩
  · rw [if_neg hday]
    have hlast : d.day = daysInMonth (gregorianLeap d.year) d.month := by omega
    by_cases hmonth : d.month < 12
    · rw [if_pos hmonth]
      exact Or.inr (Or.inl ⟨hmonth, hlast, rfl⟩)
    · rw [if_neg hmonth]
      have hdecember : d.month = 12 := by omega
      rw [hdecember] at hlast
      exact Or.inr (Or.inr ⟨hdecember, hlast, rfl⟩)

/-- Every date but the last has a next one. -/
theorem inCalendar_tomorrow (h : d.inCalendar = true) (hlast : d ≠ latest) :
    d.tomorrow.inCalendar = true := by
  obtain ⟨hyear, hm, hm', -, -⟩ := (inCalendar_iff d).1 h
  rcases tomorrow_cases h with ⟨hday, heq⟩ | ⟨hmonth, -, heq⟩ | ⟨hmonth, hday, heq⟩
  · rw [heq]
    exact (inCalendar_iff _).2 ⟨hyear, hm, hm', Nat.le_add_left 1 _, hday⟩
  · rw [heq]
    have hpos := (daysInMonth_pos_iff (gregorianLeap d.year) (d.month + 1)).2
      ⟨Nat.le_add_left 1 _, hmonth⟩
    exact (inCalendar_iff _).2 ⟨hyear, Nat.le_add_left 1 _, hmonth, Nat.le_refl 1, hpos⟩
  · rw [heq]
    apply inCalendar_newYear
    -- the year that ends cannot be the last one
    have hne : d.year ≠ lastYear := fun hy => hlast (by rw [latest, ← hy, ← hmonth, ← hday])
    rw [hasYear_iff] at hyear ⊢
    omega

/-- **From each date to the next it is one day.** -/
theorem days_tomorrow (h : d.inCalendar = true) : d.tomorrow.days = d.days + 1 := by
  obtain ⟨-, hm, -, -, -⟩ := (inCalendar_iff d).1 h
  rcases tomorrow_cases h with ⟨-, heq⟩ | ⟨hmonth, hday, heq⟩ | ⟨hmonth, hday, heq⟩
  · simp only [heq, days]
    omega
  · have hmonths := daysBefore_succ (gregorianLeap d.year) hm hmonth
    simp only [heq, days]
    omega
  · have hyear : ((daysBefore (gregorianLeap d.year) 12 + 31 : Nat) : Int) =
        if gregorianLeap d.year then 366 else 365 := by
      cases gregorianLeap d.year <;> rfl
    calc d.tomorrow.days = yearStart (d.year + 1) := by rw [heq, days_newYear]
      _ = yearStart d.year + (daysBefore (gregorianLeap d.year) 12 + 31 : Nat) := by
          rw [yearStart_succ, hyear]
      _ = d.days + 1 := by
          simp only [days, hmonth, hday]
          omega

/-! ### Both ends of the calendar -/

theorem ofDayNumber_before {n : Int} (h : n < firstDay) : ofDayNumber n = earliest := by
  have hnegative : firstDay < 0 := by decide
  rw [ofDayNumber, if_neg (by omega), if_pos (by omega)]
  decide

theorem ofDayNumber_behind {n : Int} (h : lastDay < n) : ofDayNumber n = latest := by
  have hpositive : 0 < lastDay := by decide
  rw [ofDayNumber, if_neg (by omega), if_neg (by omega)]
  decide

/-! ### Days past the end of their month -/

/-- A day of the month counts from the first, as long as it stays in the
calendar. -/
theorem dayNumber_countsOn {y : Int} {m k : Nat} (h : (⟨y, m, 1⟩ : Date).inCalendar = true)
    (hfirst : firstDay ≤ (⟨y, m, 1⟩ : Date).dayNumber + (k - 1))
    (hlast : (⟨y, m, 1⟩ : Date).dayNumber + (k - 1) ≤ lastDay) :
    (⟨y, m, k⟩ : Date).dayNumber = (⟨y, m, 1⟩ : Date).dayNumber + (k - 1) := by
  obtain ⟨hy, hm, hm', -⟩ := (inCalendar_iff _).1 h
  have hmonth : (⟨y, m, k⟩ : Date).monthStart = (⟨y, m, 1⟩ : Date).dayNumber := by
    have hclamp : min (max m 1) 12 = m := by
      simp only at hm hm'
      omega
    rw [dayNumber_eq h, monthStart, if_pos hy, hclamp]
  rw [dayNumber, hmonth, if_pos ⟨hfirst, hlast⟩]

/-- The thirty-first of April is the first of May. -/
example : (⟨2006, 4, 31⟩ : Date).dayNumber = (⟨2006, 5, 1⟩ : Date).dayNumber := by decide

/-! ### Week starts -/

/-- The week of a date begins on its weekday, on the date or up to six days
before. -/
theorem startOfWeek_near (h : d.inCalendar = true) (hfirst : firstDay + 6 ≤ d.dayNumber)
    (weekStart : Weekday) :
    (d.startOfWeek weekStart).inCalendar = true ∧
      (d.startOfWeek weekStart).weekday = weekStart ∧ ¬ d < d.startOfWeek weekStart ∧
      d.daysSince (d.startOfWeek weekStart) ≤ 6 := by
  rw [dayNumber_eq h] at hfirst
  obtain ⟨hin, hdays⟩ := startOfWeek_spec h weekStart hfirst
  obtain ⟨hmid, hmid', hmod⟩ := midweek_spec weekStart d.days
  refine ⟨hin, ?_, ?_, ?_⟩
  · rw [weekday_eq hin, hdays]
    have hindex := Weekday.index_ofDay (midweek weekStart d.days - 3)
    exact Weekday.index_inj (by omega)
  · rw [← days_lt_days h hin, hdays]
    omega
  · rw [daysSince, dayNumber_eq h, dayNumber_eq hin, hdays]
    omega

end Date

/-! ### The count -/

namespace Calendar

/-- Whether numbers count the dates of the calendar day by day, and dates are found
again from their numbers. -/
structure CountsDays (number : Date → Int) (date : Int → Date) : Prop where
  /-- The count begins on 1 January 1970. -/
  epoch : number ⟨1970, 1, 1⟩ = 0
  /-- From each date to the next it grows by one. -/
  next : ∀ d : Date, d.inCalendar = true → d ≠ .latest →
    d.tomorrow.inCalendar = true ∧ number d.tomorrow = number d + 1
  /-- Earlier dates have smaller numbers. -/
  order : ∀ d e : Date, d.inCalendar = true → e.inCalendar = true →
    (number d < number e ↔ d < e)
  /-- The numbers of the dates are those from the first day to the last. -/
  range : ∀ d : Date, d.inCalendar = true → firstDay ≤ number d ∧ number d ≤ lastDay
  date_number : ∀ d : Date, d.inCalendar = true → date (number d) = d
  number_date : ∀ n : Int, firstDay ≤ n → n ≤ lastDay →
    (date n).inCalendar = true ∧ number (date n) = n
  /-- What lies outside the calendar is taken for its nearer end. -/
  before : ∀ n < firstDay, date n = .earliest
  behind : ∀ n > lastDay, date n = .latest
  /-- A day past the end of its month counts on, as long as it stays in the
  calendar. -/
  countsOn : ∀ (y : Int) (m k : Nat), (⟨y, m, 1⟩ : Date).inCalendar = true →
    firstDay ≤ number ⟨y, m, 1⟩ + (k - 1) → number ⟨y, m, 1⟩ + (k - 1) ≤ lastDay →
    number ⟨y, m, k⟩ = number ⟨y, m, 1⟩ + (k - 1)

end Calendar

namespace Date

/-- **Day numbers are the order of the calendar**, counted from 1 January 1970; and
the week of every date but those of the calendar's first days begins on its
weekday, at most six days before the date. -/
theorem countsDays :
    CountsDays dayNumber ofDayNumber ∧
      ∀ (d : Date) (weekStart : Weekday), d.inCalendar = true → firstDay + 6 ≤ d.dayNumber →
        (d.startOfWeek weekStart).inCalendar = true ∧
          (d.startOfWeek weekStart).weekday = weekStart ∧ ¬ d < d.startOfWeek weekStart ∧
          d.daysSince (d.startOfWeek weekStart) ≤ 6 := by
  refine ⟨?_, fun d weekStart h hfirst => startOfWeek_near h hfirst weekStart⟩
  constructor
  case epoch => decide
  case next =>
    intro d h hlast
    have hin := inCalendar_tomorrow h hlast
    rw [dayNumber_eq hin, dayNumber_eq h]
    exact ⟨hin, days_tomorrow h⟩
  case order =>
    intro d e hd he
    rw [dayNumber_eq hd, dayNumber_eq he]
    exact days_lt_days hd he
  case range =>
    intro d h
    rw [dayNumber_eq h]
    exact days_mem_calendar h
  case date_number =>
    intro d h
    obtain ⟨hfirst, hlast⟩ := days_mem_calendar h
    rw [dayNumber_eq h, ofDayNumber_eq hfirst hlast, ofDays_days h]
  case number_date =>
    intro n hfirst hlast
    have hin := inCalendar_ofDays hfirst hlast
    rw [ofDayNumber_eq hfirst hlast, dayNumber_eq hin]
    exact ⟨hin, days_ofDays hfirst hlast⟩
  case before => exact fun n h => ofDayNumber_before h
  case behind => exact fun n h => ofDayNumber_behind h
  case countsOn => exact fun y m k h => dayNumber_countsOn h

/-- The leap day of the year -44: the next date, the way back from its number, the
days of January counted on to it, and the Monday before it. -/
theorem countsDays_leapDay :
    ((⟨-44, 2, 29⟩ : Date).inCalendar = true ∧ (⟨-44, 2, 29⟩ : Date) ≠ latest ∧
        firstDay + 6 ≤ (⟨-44, 2, 29⟩ : Date).dayNumber ∧
        (⟨-44, 1, 1⟩ : Date).dayNumber + ((60 : Nat) - 1) ≤ lastDay) ∧
      (⟨-44, 3, 1⟩ : Date).dayNumber = (⟨-44, 2, 29⟩ : Date).dayNumber + 1 ∧
      ofDayNumber (⟨-44, 2, 29⟩ : Date).dayNumber = ⟨-44, 2, 29⟩ ∧
      (⟨-44, 1, 60⟩ : Date).dayNumber = (⟨-44, 1, 1⟩ : Date).dayNumber + ((60 : Nat) - 1) ∧
      ((⟨-44, 2, 29⟩ : Date).startOfWeek .monday).weekday = .monday := by
  have hleapDay : (⟨-44, 2, 29⟩ : Date).inCalendar = true := by decide
  have hlast : (⟨-44, 2, 29⟩ : Date) ≠ latest := by decide
  have hfirst : firstDay + 6 ≤ (⟨-44, 2, 29⟩ : Date).dayNumber := by decide
  have hend : (⟨-44, 1, 1⟩ : Date).dayNumber + ((60 : Nat) - 1) ≤ lastDay := by decide
  obtain ⟨hcounts, hweeks⟩ := countsDays
  exact ⟨⟨hleapDay, hlast, hfirst, hend⟩, (hcounts.next _ hleapDay hlast).2,
    hcounts.date_number _ hleapDay, hcounts.countsOn _ 1 60 (by decide) (by decide) hend,
    (hweeks _ .monday hleapDay hfirst).2.1⟩

end Date

end Recurrence
