/-
# The weeks of the years tile the calendar

The weeks of a year begin where those of the year before end, so a date lies in
one week of one year only: the year that most days of its week lie in. A list of
week numbers accepts the date if it names that week from either end of that
year.

Key definitions: `Date.week`, `Date.InWeek`.
Key theorems: `WeekYear.firstDay_add_weeks`, `Date.inWeek_iff`, `Date.four_le_countP_week`,
`WeekYear.weeks_tile`.
-/
import Recurrence.Proofs.Expansion.Lists

namespace Recurrence

open Calendar

/-! ### Weeks that follow each other -/

namespace WeekYear

/-- A year has 52 or 53 weeks. -/
theorem weeks_eq {y : Int} (hy : hasYear y = true) (weekStart : Weekday) :
    (of y weekStart).weeks = 52 ∨ (of y weekStart).weeks = 53 := by
  obtain ⟨hlow, hhigh, -, hweeks⟩ := of_spec hy weekStart
  have hlen := yearLength_bounds y
  omega

/-- The weeks of a year end where those of the next one begin. -/
theorem firstDay_add_weeks {y : Int} (hy : hasYear y = true) (hnext : hasYear (y + 1) = true)
    (weekStart : Weekday) :
    (of y weekStart).firstDay + 7 * (of y weekStart).weeks =
      yearLength y + (of (y + 1) weekStart).firstDay := by
  obtain ⟨hlow, hhigh, haligned, hweeks⟩ := of_spec hy weekStart
  obtain ⟨hlow', hhigh', haligned', -⟩ := of_spec hnext weekStart
  have hlen := yearLength_of_hasYear hy
  omega

theorem weekOf?_eq_some (w : WeekYear) (n k : Int) :
    w.weekOf? n = some k ↔
      (1 ≤ k ∧ k ≤ w.weeks) ∧ w.firstDay + 7 * (k - 1) ≤ n ∧ n < w.firstDay + 7 * k := by
  simp only [weekOf?]
  split <;> simp only [Option.some.injEq, reduceCtorEq, false_iff] <;> omega

end WeekYear

namespace Calendar

/-- Of seven days in a row, four or more lie in the year of the fourth, and in no
other. -/
theorem four_le_countP_years (n y : Int) :
    4 ≤ (List.range 7).countP (fun i : Nat => yearOfDay (n + i) = y) ↔ y = yearOfDay (n + 3) := by
  simp only [yearOfDay_eq_iff]
  obtain ⟨hlow, hhigh⟩ := yearOfDay_spec (n + 3)
  generalize yearOfDay (n + 3) = v at *
  have hlong := yearStart_add_le (show v < v + 1 by omega)
  constructor
  · intro h
    by_contra hne
    -- the days of another year lie all before or all behind the fourth
    rcases lt_or_gt_of_ne hne with hlt | hgt
    · have hends := yearStart_mono (show y + 1 ≤ v from hlt)
      refine absurd (h.trans (List.countP_mono_left (q := fun i => decide (i < 3)) ?_)) (by decide)
      intro i _ hi
      simp only [decide_eq_true_eq] at hi ⊢
      omega
    · have hbegins := yearStart_mono (show v + 1 ≤ y from hgt)
      refine absurd (h.trans (List.countP_mono_left (q := fun i => decide (3 < i)) ?_)) (by decide)
      intro i _ hi
      simp only [decide_eq_true_eq] at hi ⊢
      omega
  · rintro rfl
    -- the year begins with the seven days or before, or else it does not end in them
    by_cases hbegins : yearStart y ≤ n
    · refine (show 4 ≤ (List.range 7).countP fun i : Nat => i < 4 by decide).trans ?_
      refine List.countP_mono_left fun i _ hi => ?_
      simp only [decide_eq_true_eq] at hi ⊢
      omega
    · refine (show 4 ≤ (List.range 7).countP fun i : Nat => 3 ≤ i by decide).trans ?_
      refine List.countP_mono_left fun i hi hi' => ?_
      rw [List.mem_range] at hi
      simp only [decide_eq_true_eq] at hi' ⊢
      omega

end Calendar

/-! ### The week of a date -/

namespace Date

variable {d : Date}

/-- The seven days of the week that holds a date. -/
def week (d : Date) (weekStart : Weekday) : List Date :=
  (List.range 7).map fun i : Nat => (d.startOfWeek weekStart).addDays i

/-- Whether a date lies in the week of a number of a year of the calendar: weeks
follow each other from the year's week one on. -/
structure InWeek (d : Date) (weekStart : Weekday) (year week : Int) : Prop where
  calendar : hasYear year = true
  number : 1 ≤ week ∧ week ≤ (WeekYear.of year weekStart).weeks
  begins : (WeekYear.of year weekStart).firstDay + 7 * (week - 1) ≤ d.daysSince ⟨year, 1, 1⟩
  ends : d.daysSince ⟨year, 1, 1⟩ < (WeekYear.of year weekStart).firstDay + 7 * week

/-- The year of the week of a date is the year of the week's fourth day. -/
def yearOfWeek (d : Date) (weekStart : Weekday) : Int :=
  yearOfDay (midweek weekStart d.days)

theorem daysSince_newYear (h : d.inCalendar = true) {year : Int} (hyear : hasYear year = true) :
    d.daysSince ⟨year, 1, 1⟩ = d.days - yearStart year := by
  rw [daysSince, dayNumber_eq h, dayNumber_eq (inCalendar_newYear hyear), days_newYear]

/-- The week of a date within a year is the one calculated for its day. -/
theorem inWeek_iff_weekOf? (h : d.inCalendar = true) (weekStart : Weekday) (year week : Int) :
    d.InWeek weekStart year week ↔ hasYear year = true ∧
      (WeekYear.of year weekStart).weekOf? (d.days - yearStart year) = some week := by
  rw [WeekYear.weekOf?_eq_some]
  constructor
  · rintro ⟨hyear, hnumber, hbegins, hends⟩
    rw [daysSince_newYear h hyear] at hbegins hends
    exact ⟨hyear, hnumber, hbegins, hends⟩
  · rintro ⟨hyear, hnumber, hbegins, hends⟩
    rw [← daysSince_newYear h hyear] at hbegins hends
    exact ⟨hyear, hnumber, hbegins, hends⟩

/-- A date lies in one week of one year. -/
theorem inWeek_iff (h : d.inCalendar = true) (weekStart : Weekday) (year week : Int) :
    d.InWeek weekStart year week ↔ hasYear year = true ∧ year = d.yearOfWeek weekStart ∧
      week = weekFromStart weekStart d.days := by
  rw [inWeek_iff_weekOf? h]
  refine and_congr_right fun hyear => ?_
  rw [WeekYear.weekOf?_of hyear, eq_comm (a := year), yearOfWeek, yearOfDay_eq_iff]
  split
  · rename_i hmid
    rw [Option.some.injEq, (weekFrom_eq weekStart d.days hmid.1 hmid.2).1, and_iff_right hmid,
      eq_comm]
  · rename_i hmid
    simp only [reduceCtorEq, false_iff, not_and]
    exact fun hin => absurd hin hmid

/-- A week lies in the year of one of its dates or in a neighbour of it. -/
theorem yearOfWeek_bounds (h : d.inCalendar = true) (weekStart : Weekday) :
    d.year - 1 ≤ d.yearOfWeek weekStart ∧ d.yearOfWeek weekStart ≤ d.year + 1 := by
  obtain ⟨hmid, hmid', -⟩ := midweek_spec weekStart d.days
  obtain ⟨hlow, hhigh⟩ := yearOfDay_spec (midweek weekStart d.days)
  have hbounds := days_bounds h
  rw [← yearOfWeek] at hlow hhigh
  constructor
  · by_contra hlt
    have := yearStart_add_le (show d.yearOfWeek weekStart + 1 < d.year by omega)
    omega
  · by_contra hlt
    have := yearStart_add_le (show d.year + 1 < d.yearOfWeek weekStart by omega)
    omega

/-- **Four or more days of a week lie in the year of the week**, and in no other. -/
theorem four_le_countP_week (h : d.inCalendar = true) (hprev : hasYear (d.year - 1) = true)
    (hnext : hasYear (d.year + 1) = true) (weekStart : Weekday) (year : Int) :
    4 ≤ (d.week weekStart).countP (fun e => e.year = year) ↔ year = d.yearOfWeek weekStart := by
  obtain ⟨hmid, hmid', -⟩ := midweek_spec weekStart d.days
  have hbounds := days_bounds h
  have hfirst := firstDay_le_of_hasYear hprev
  have hbefore := yearStart_add_le (show d.year - 1 < d.year by omega)
  have hlast := le_lastDay_of_hasYear hnext
  have hbehind := yearStart_add_le (show d.year + 1 < d.year + 1 + 1 by omega)
  obtain ⟨hin, hdays⟩ := startOfWeek_spec h weekStart (by omega)
  have hyear : ∀ i ∈ List.range 7, ((d.startOfWeek weekStart).addDays i).year =
      yearOfDay (midweek weekStart d.days - 3 + i) := by
    intro i hi
    rw [List.mem_range] at hi
    rw [addDays, dayNumber_eq hin, hdays, ofDayNumber_eq (by omega) (by omega)]
    rfl
  rw [week, List.countP_map, yearOfWeek, ← Int.sub_add_cancel (midweek weekStart d.days) 3,
    ← four_le_countP_years]
  refine iff_of_eq (congrArg (4 ≤ ·) (List.countP_congr fun i hi => ?_))
  rw [Function.comp, hyear i hi]

end Date

namespace WeekYear

/-- **The weeks of the years tile the calendar.** A year has 52 or 53 weeks, which
begin within three days of its first day and end where those of the next year
begin. So each date lies in one week of one year, the year of at least four days of
that week, and a list accepts the week by its number from either end of that year. -/
theorem weeks_tile {y : Int} (hprev : hasYear (y - 1) = true) (hnext : hasYear (y + 1) = true)
    (weekStart : Weekday) :
    ((of y weekStart).weeks = 52 ∨ (of y weekStart).weeks = 53) ∧
      (-3 ≤ (of y weekStart).firstDay ∧ (of y weekStart).firstDay ≤ 3) ∧
      (of y weekStart).firstDay + 7 * (of y weekStart).weeks =
        yearLength y + (of (y + 1) weekStart).firstDay ∧
      ∀ d : Date, d.inCalendar = true → d.year = y → ∃ year week,
        (∀ year' week', d.InWeek weekStart year' week' ↔ year' = year ∧ week' = week) ∧
        (∀ year', 4 ≤ (d.week weekStart).countP (fun e => e.year = year') ↔ year' = year) ∧
        ∀ indices, ByList.acceptsWeek indices weekStart d = true ↔ ∃ i ∈ indices,
          (0 < i ∧ i = week) ∨ (i < 0 ∧ i = week - (of year weekStart).weeks - 1) := by
  have hy : hasYear y = true := by
    rw [hasYear_iff] at *
    omega
  obtain ⟨hlow, hhigh, -, -⟩ := of_spec hy weekStart
  refine ⟨weeks_eq hy weekStart, ⟨hlow, hhigh⟩, firstDay_add_weeks hy hnext weekStart, ?_⟩
  rintro d hd rfl
  have hyear : hasYear (d.yearOfWeek weekStart) = true := by
    have hbounds := Date.yearOfWeek_bounds hd weekStart
    rw [hasYear_iff] at *
    omega
  refine ⟨d.yearOfWeek weekStart, weekFromStart weekStart d.days, fun year week => ?_,
    Date.four_le_countP_week hd hprev hnext weekStart, fun indices => ?_⟩
  · rw [Date.inWeek_iff hd]
    exact and_iff_right_of_imp fun h => h.1 ▸ hyear
  · have hstart := weekFromStart_pos weekStart d.days
    have hend := weekFromEnd_pos weekStart d.days
    have hweeks : (of (d.yearOfWeek weekStart) weekStart).weeks =
        weekFromStart weekStart d.days + weekFromEnd weekStart d.days - 1 :=
      weeks_of hyear weekStart d.days
    rw [ByList.acceptsWeek_iff hd hprev hnext]
    refine exists_congr fun i => and_congr_right fun _ => ?_
    omega

/-- New Year's Day of 2005 lies in the last week of 2004, and in no other. -/
theorem weeks_tile_newYear : hasYear (2005 - 1) = true ∧ hasYear (2005 + 1) = true ∧
    (∀ year week, (⟨2005, 1, 1⟩ : Date).InWeek .monday year week ↔ year = 2004 ∧ week = 53) ∧
    ByList.acceptsWeek [-1] .monday ⟨2005, 1, 1⟩ = true := by
  refine ⟨by decide, by decide, ?_⟩
  obtain ⟨-, -, -, hdates⟩ := weeks_tile (y := 2005) (by decide) (by decide) .monday
  obtain ⟨year, week, hunique, -, haccepts⟩ := hdates ⟨2005, 1, 1⟩ (by decide) rfl
  have hin : (⟨2005, 1, 1⟩ : Date).InWeek .monday 2004 53 :=
    ⟨by decide, by decide, by decide, by decide⟩
  obtain ⟨rfl, rfl⟩ := (hunique 2004 53).1 hin
  exact ⟨hunique, (haccepts [-1]).2 ⟨-1, by decide, Or.inr (by decide)⟩⟩

end WeekYear

end Recurrence
