/-
# Weeks and weekdays

A week belongs to the year that holds its fourth day. Its number, from the first
week of that year or from the last one, is counted on those fourth days
(`weekFromStart`, `weekFromEnd`); the calculation by the weekday of 1 January
comes to the same (`Date.weekNumber_eq`). The occurrences of a weekday within a
span of days are counted one by one (`occurrences`), and divide the span
(`occurrences_from`, `occurrences_to`).

Key definitions: `midweek`, `weekFromStart`, `weekFromEnd`, `occurrences`.
Key theorems: `Date.startOfWeek_spec`, `Date.weekNumber_eq`, `occurrences_to`.
-/
import Recurrence.Calendar.WeekYear
import Recurrence.Proofs.Calendar.Days

namespace Recurrence

open Calendar

/-! ### Weekdays of day numbers -/

namespace Weekday

theorem index_ofDay (n : Int) : ((ofDay n).index : Int) = (n + 3) % 7 := by
  have : ∀ i < 7, (ofIndex i).index = i := by decide
  rw [ofDay, this _ (by omega)]
  omega

theorem index_inj {a b : Weekday} (h : a.index = b.index) : a = b := by
  rw [← ofIndex_index a, h, ofIndex_index]

theorem ofDay_eq_iff (n m : Int) : ofDay n = ofDay m ↔ (n + 3) % 7 = (m + 3) % 7 := by
  constructor
  · intro h
    rw [← index_ofDay, h, index_ofDay]
  · intro h
    rw [← index_ofDay, ← index_ofDay] at h
    exact index_inj (by omega)

theorem daysAfter_ofDay (n : Int) (start : Weekday) :
    ((ofDay n).daysAfter start : Int) = (n + 3 - start.index) % 7 := by
  have hn := index_ofDay n
  have hs := index_lt start
  unfold daysAfter
  omega

end Weekday

namespace Calendar

/-! ### Weeks of day numbers -/

/-- The number of the week of a day, counted from that of day 0. -/
def weekIndex (weekStart : Weekday) (n : Int) : Int :=
  (n + 3 - weekStart.index) / 7

/-- The fourth day of the week that holds a day. -/
def midweek (weekStart : Weekday) (n : Int) : Int :=
  7 * weekIndex weekStart n + weekStart.index

/-- The number of the week of a day within the year that holds the week's fourth
day. -/
def weekFromStart (weekStart : Weekday) (n : Int) : Int :=
  (midweek weekStart n - yearStart (yearOfDay (midweek weekStart n))) / 7 + 1

/-- The number of the week of a day counted from the last week of its year. -/
def weekFromEnd (weekStart : Weekday) (n : Int) : Int :=
  (yearStart (yearOfDay (midweek weekStart n) + 1) - 1 - midweek weekStart n) / 7 + 1

/-! ### Occurrences of weekdays -/

/-- How many of the days from the first to the last fall on a weekday. -/
def occurrences (first last : Int) (day : Weekday) : Nat :=
  (List.range (last + 1 - first).toNat).countP fun i : Nat => Weekday.ofDay (first + i) = day

theorem countP_range_mod (r : Nat) (hr : r < 7) (k : Nat) :
    (List.range k).countP (fun i => i % 7 = r) = (k + 6 - r) / 7 := by
  induction k with
  | zero => simp; omega
  | succ k ih =>
    rw [List.range_succ, List.countP_append, ih, List.countP_singleton]
    split <;> rename_i h <;> simp only [decide_eq_true_eq] at h <;> omega

/-- Up to a day on the weekday, every seventh day counts. -/
theorem occurrences_to {first n : Int} (h : first ≤ n) :
    (occurrences first n (Weekday.ofDay n) : Int) = (n - first) / 7 + 1 := by
  have hcount : occurrences first n (Weekday.ofDay n) = (List.range (n + 1 - first).toNat).countP
      fun i => i % 7 = (n - first).toNat % 7 := by
    unfold occurrences
    refine List.countP_congr fun i hi => ?_
    rw [List.mem_range] at hi
    simp only [decide_eq_true_eq, Weekday.ofDay_eq_iff]
    omega
  rw [hcount, countP_range_mod _ (Nat.mod_lt _ (by decide))]
  omega

/-- From a day on the weekday on, every seventh day counts. -/
theorem occurrences_from {n last : Int} (h : n ≤ last) :
    (occurrences n last (Weekday.ofDay n) : Int) = (last - n) / 7 + 1 := by
  have hcount : occurrences n last (Weekday.ofDay n) = (List.range (last + 1 - n).toNat).countP
      fun i => i % 7 = 0 := by
    unfold occurrences
    refine List.countP_congr fun i hi => ?_
    simp only [decide_eq_true_eq, Weekday.ofDay_eq_iff]
    omega
  rw [hcount, countP_range_mod 0 (by decide)]
  omega

end Calendar

/-! ### The weeks of a year -/

theorem WeekYear.of_spec {y : Int} (hy : hasYear y = true) (weekStart : Weekday) :
    -3 ≤ (of y weekStart).firstDay ∧ (of y weekStart).firstDay ≤ 3 ∧
      (yearStart y + (of y weekStart).firstDay + 3 - weekStart.index) % 7 = 0 ∧
      (of y weekStart).weeks = (yearLength y - (of y weekStart).firstDay + 3) / 7 := by
  have hoffset := Weekday.daysAfter_ofDay (yearStart y) weekStart
  have hday : (⟨y, 1, 1⟩ : Date).weekday = Weekday.ofDay (yearStart y) := by
    rw [Date.weekday, Date.dayNumber_eq (Date.inCalendar_newYear hy), Date.days_newYear]
  simp only [of, hday]
  refine ⟨?_, ?_, ?_, ?_⟩ <;> split <;> (try split) <;> omega

theorem yearLength_bounds (y : Int) : 365 ≤ yearLength y ∧ yearLength y ≤ 366 := by
  unfold yearLength
  split <;> omega

theorem midweek_spec (weekStart : Weekday) (n : Int) :
    midweek weekStart n ≤ n + 3 ∧ n ≤ midweek weekStart n + 3 ∧
      midweek weekStart n % 7 = weekStart.index := by
  have hw := Weekday.index_lt weekStart
  simp only [midweek, weekIndex]
  omega

/-- A day lies in a week of the year exactly if the fourth day of its week lies
in the year. -/
theorem WeekYear.weekOf?_of {y : Int} (hy : hasYear y = true) (weekStart : Weekday) (n : Int) :
    (of y weekStart).weekOf? (n - yearStart y) =
      if yearStart y ≤ midweek weekStart n ∧ midweek weekStart n < yearStart (y + 1) then
        some ((midweek weekStart n - yearStart y) / 7 + 1)
      else none := by
  obtain ⟨hlow, hhigh, hfirst, hweeks⟩ := of_spec hy weekStart
  obtain ⟨hmid, hmid', hmod⟩ := midweek_spec weekStart n
  have hlen := yearLength_of_hasYear hy
  have hlen' := yearLength_bounds y
  unfold weekOf?
  have hiff : ((of y weekStart).firstDay ≤ n - yearStart y ∧
      (n - yearStart y - (of y weekStart).firstDay) / 7 + 1 ≤ (of y weekStart).weeks) ↔
      yearStart y ≤ midweek weekStart n ∧ midweek weekStart n < yearStart (y + 1) := by
    omega
  rw [if_congr hiff rfl rfl]
  split
  · congr 1
    omega
  · rfl

/-- The weeks of a year are those up to any week of it and those from it on. -/
theorem WeekYear.weeks_of {y : Int} (hy : hasYear y = true) (weekStart : Weekday) (n : Int) :
    (of y weekStart).weeks = (midweek weekStart n - yearStart y) / 7 + 1 +
      ((yearStart (y + 1) - 1 - midweek weekStart n) / 7 + 1) - 1 := by
  obtain ⟨hlow, hhigh, hfirst, hweeks⟩ := of_spec hy weekStart
  obtain ⟨hmid, hmid', hmod⟩ := midweek_spec weekStart n
  have hlen := yearLength_of_hasYear hy
  omega

theorem weekFromStart_pos (weekStart : Weekday) (n : Int) :
    1 ≤ weekFromStart weekStart n := by
  have := (yearOfDay_spec (midweek weekStart n)).1
  unfold weekFromStart
  omega

theorem weekFromEnd_pos (weekStart : Weekday) (n : Int) :
    1 ≤ weekFromEnd weekStart n := by
  have := (yearOfDay_spec (midweek weekStart n)).2
  unfold weekFromEnd
  omega

theorem weekFrom_eq (weekStart : Weekday) (n : Int) {y : Int}
    (h : yearStart y ≤ midweek weekStart n) (h' : midweek weekStart n < yearStart (y + 1)) :
    weekFromStart weekStart n = (midweek weekStart n - yearStart y) / 7 + 1 ∧
      weekFromEnd weekStart n = (yearStart (y + 1) - 1 - midweek weekStart n) / 7 + 1 := by
  rw [weekFromStart, weekFromEnd, yearOfDay_eq h h']
  exact ⟨rfl, rfl⟩

namespace Date

theorem weekday_eq {d : Date} (h : d.inCalendar = true) : d.weekday = Weekday.ofDay d.days := by
  rw [weekday, dayNumber_eq h]

/-- The week that holds a date begins three days before its fourth day, or with
the calendar. -/
theorem startOfWeek_eq {d : Date} (h : d.inCalendar = true) (weekStart : Weekday) :
    d.startOfWeek weekStart = ofDays (max firstDay (midweek weekStart d.days - 3)) := by
  obtain ⟨hfirst, hlast⟩ := days_mem_calendar h
  obtain ⟨hmid, -, -⟩ := midweek_spec weekStart d.days
  have hoffset := Weekday.daysAfter_ofDay d.days weekStart
  have hn : d.days + -((Weekday.ofDay d.days).daysAfter weekStart : Int) =
      midweek weekStart d.days - 3 := by
    simp only [midweek, weekIndex]
    omega
  have hnegative : firstDay + 6 < 0 := by decide
  rw [startOfWeek, addDays, dayNumber_eq h, weekday_eq h, hn, ofDayNumber]
  by_cases hbefore : midweek weekStart d.days - 3 < firstDay
  · rw [if_neg (by omega), if_pos (by omega), max_eq_left hbefore.le]
  · rw [if_pos (by omega), max_eq_right (by omega)]

/-- The week that holds a date begins on the given weekday, at most six days
before it. -/
theorem startOfWeek_spec {d : Date} (h : d.inCalendar = true) (weekStart : Weekday)
    (hf : firstDay + 6 ≤ d.days) :
    (d.startOfWeek weekStart).inCalendar = true ∧
      (d.startOfWeek weekStart).days = midweek weekStart d.days - 3 := by
  have hl := (days_mem_calendar h).2
  obtain ⟨hmid, hmid', -⟩ := midweek_spec weekStart d.days
  have hfirst : firstDay ≤ midweek weekStart d.days - 3 := by omega
  have hlast : midweek weekStart d.days - 3 ≤ lastDay := by omega
  rw [startOfWeek_eq h, max_eq_right hfirst]
  exact ⟨inCalendar_ofDays hfirst hlast, days_ofDays hfirst hlast⟩

/-- **The week number counts fourth days.** The number calculated for a date is
that of its week in the year of the week, with the number of weeks of that
year. -/
theorem weekNumber_eq {d : Date} (h : d.inCalendar = true) (hprev : hasYear (d.year - 1) = true)
    (hnext : hasYear (d.year + 1) = true) (weekStart : Weekday) :
    d.weekNumber weekStart = (weekFromStart weekStart d.days,
      weekFromStart weekStart d.days + weekFromEnd weekStart d.days - 1) := by
  have hy := ((inCalendar_iff d).1 h).1
  obtain ⟨hlow, hhigh⟩ := days_bounds h
  obtain ⟨hmid, hmid', hmod⟩ := midweek_spec weekStart d.days
  have hlast := yearLength_of_hasYear hprev
  have hlast' := yearLength_bounds (d.year - 1)
  have hafter := yearLength_of_hasYear hnext
  have hafter' := yearLength_bounds (d.year + 1)
  rw [Int.sub_add_cancel] at hlast
  simp only [weekNumber, dayOfYear_eq h, WeekYear.weekOf?_of hy]
  -- the year of the week is that of the date or one of its neighbours
  by_cases hbefore : midweek weekStart d.days < yearStart d.year
  · obtain ⟨hs, he⟩ := weekFrom_eq weekStart d.days (y := d.year - 1)
      (by omega) (by rw [Int.sub_add_cancel]; exact hbefore)
    have hweeks := WeekYear.weeks_of hprev weekStart d.days
    have hspec := WeekYear.of_spec hy weekStart
    have hspec' := WeekYear.of_spec hprev weekStart
    rw [Int.sub_add_cancel] at hweeks he
    rw [if_neg (by omega)]
    simp only
    rw [if_pos (by omega), hs, he, Prod.mk.injEq]
    omega
  · by_cases hbehind : yearStart (d.year + 1) ≤ midweek weekStart d.days
    · obtain ⟨hs, he⟩ := weekFrom_eq weekStart d.days (y := d.year + 1) hbehind (by omega)
      have hweeks := WeekYear.weeks_of hnext weekStart d.days
      have hspec := WeekYear.of_spec hy weekStart
      rw [if_neg (by omega)]
      simp only
      rw [if_neg (by omega), hs, he, Prod.mk.injEq]
      omega
    · obtain ⟨hs, he⟩ := weekFrom_eq weekStart d.days (y := d.year)
        (by omega) (by omega)
      have hweeks := WeekYear.weeks_of hy weekStart d.days
      rw [if_pos (by omega), hs, he]
      simp only [Prod.mk.injEq, true_and]
      exact hweeks

end Date

end Recurrence
