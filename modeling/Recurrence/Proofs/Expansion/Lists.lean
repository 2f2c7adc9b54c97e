/-
# What the lists accept

A list that selects days lists the days of a month that it accepts: listing and
testing are two ways to the same days. What it accepts is what it means: an
entry names a place in the month or the year from either end, a week by its
number from either end of its year, or an occurrence of a weekday counted from
either end.

Key theorems: `ByList.mem_values_days`, `ByList.accepts_monthDays_iff`,
`ByList.accepts_yearDays_iff`, `ByList.acceptsWeek_iff`, `OrdinalWeekday.accepts_iff`.
-/
import Recurrence.Proofs.Expansion.Meaning
import Recurrence.Proofs.Expansion.Values

namespace Recurrence

open Calendar

/-! ### Places -/

theorem resolveIndex_eq_some {index length place : Int} :
    resolveIndex index length = some place ↔
      (1 ≤ place ∧ place ≤ length) ∧ IsPlace index place length := by
  simp only [resolveIndex, IsPlace]
  split
  · split <;> simp only [Option.some.injEq, reduceCtorEq, false_iff] <;> omega
  · split <;> simp only [Option.some.injEq, reduceCtorEq, false_iff] <;> omega

theorem signedDay_eq {day : Nat} (h : day < 2 ^ 31) : signedDay day = day := by
  have hsize : Int32.size = 2 ^ 32 := rfl
  exact Int.bmod_eq_of_le (by omega) (by omega)

theorem any_resolveIndex_iff {indices : List Int} {length place : Int} (h : 1 ≤ place)
    (h' : place ≤ length) :
    (indices.any fun index => resolveIndex index length == some place) = true ↔
      ∃ index ∈ indices, IsPlace index place length := by
  rw [List.any_eq_true]
  refine exists_congr fun index => and_congr_right fun _ => ?_
  rw [beq_iff_eq, resolveIndex_eq_some]
  exact and_iff_right ⟨h, h'⟩

/-! ### Months -/

theorem monthLength_le (y : Int) (m : Nat) : monthLength y m ≤ 31 := by
  unfold monthLength
  split
  · exact daysInMonth_le _
  · exact Nat.zero_le _

theorem inCalendar_of_mem_month {y : Int} {m k : Nat} (h : 1 ≤ k) (h' : k ≤ monthLength y m) :
    (⟨y, m, k⟩ : Date).inCalendar = true := by
  simpa [Date.inCalendar] using And.intro h h'

namespace Date

theorem day_le {d : Date} (h : d.inCalendar = true) : 1 ≤ d.day ∧ d.day ≤ 31 := by
  simp only [inCalendar, Bool.and_eq_true, decide_eq_true_eq] at h
  exact ⟨h.1, h.2.trans (monthLength_le _ _)⟩

theorem day_le_monthLength {d : Date} (h : d.inCalendar = true) :
    d.day ≤ monthLength d.year d.month := by
  simp only [inCalendar, Bool.and_eq_true, decide_eq_true_eq] at h
  exact h.2

end Date

/-! ### Lists of days -/

namespace ByList

theorem accepts_monthDays_iff {s : Stamp} (h : s.date.inCalendar = true) (days : List Int) :
    (monthDays days).accepts s = true ↔
      ∃ i ∈ days, IsPlace i s.day (monthLength s.year s.month) := by
  have hday := Date.day_le h
  have hlen := Date.day_le_monthLength h
  simp only [Stamp.date] at hday hlen
  rw [accepts, signedDay_eq (by omega)]
  exact any_resolveIndex_iff (by omega) (by omega)

theorem accepts_yearDays_iff {s : Stamp} (h : s.date.inCalendar = true) (days : List Int) :
    (yearDays days).accepts s = true ↔
      ∃ i ∈ days, IsPlace i (s.date.days - yearStart s.year + 1) (yearLength s.year) := by
  have hy := ((Date.inCalendar_iff s.date).1 h).1
  have hbounds := Date.days_bounds h
  have hlen := yearLength_of_hasYear hy
  rw [accepts, Date.dayOfYear_eq h]
  exact any_resolveIndex_iff (by simp only [Stamp.date] at *; omega)
    (by simp only [Stamp.date] at *; omega)

/-- A week is found by its number from either end of its year. -/
theorem acceptsWeek_iff {d : Date} (h : d.inCalendar = true) (hprev : hasYear (d.year - 1) = true)
    (hnext : hasYear (d.year + 1) = true) (indices : List Int) (weekStart : Weekday) :
    acceptsWeek indices weekStart d = true ↔ ∃ i ∈ indices,
      i = weekFromStart weekStart d.days ∨ i = -weekFromEnd weekStart d.days := by
  have hstart := weekFromStart_pos weekStart d.days
  have hend := weekFromEnd_pos weekStart d.days
  rw [acceptsWeek, Date.weekNumber_eq h hprev hnext]
  rw [any_resolveIndex_iff hstart (by omega)]
  refine exists_congr fun i => and_congr_right fun _ => or_congr_right ?_
  omega

end ByList

/-! ### Weekdays -/

/-- **A numbered weekday counts occurrences.** The quotient by seven is the
number of days on that weekday from either end of the month or the year. -/
theorem OrdinalWeekday.accepts_iff {d : Date} (h : d.inCalendar = true) (entry : OrdinalWeekday)
    (inYear : Bool) {first last : Int}
    (hspan : (first, last) = if inYear then (yearStart d.year, yearStart (d.year + 1) - 1)
      else ((⟨d.year, d.month, 1⟩ : Date).days,
        (⟨d.year, d.month, 1⟩ : Date).days + monthLength d.year d.month - 1)) :
    entry.accepts inYear d = true ↔ entry.Names first last d.days := by
  have hday := Date.day_le h
  have hlen := Date.day_le_monthLength h
  have hbounds := Date.days_bounds h
  have hyear := yearLength_of_hasYear ((Date.inCalendar_iff d).1 h).1
  have hfirst : d.days = (⟨d.year, d.month, 1⟩ : Date).days + (d.day - 1) :=
    Date.days_eq d.year d.month d.day
  -- the place of the day in the span, from 0, and the length of the span
  have hplace : (if inYear then (d.dayOfYear, (yearLength d.year : Int))
      else (signedDay d.day - 1, (monthLength d.year d.month : Int))) =
      (d.days - first, last - first + 1) := by
    rw [Date.dayOfYear_eq h, signedDay_eq (by omega)]
    cases inYear with
    | true =>
      simp only [if_true, Prod.mk.injEq] at hspan ⊢
      omega
    | false =>
      simp only [Bool.false_eq_true, if_false, Prod.mk.injEq] at hspan ⊢
      omega
  have hinside : first ≤ d.days ∧ d.days ≤ last := by
    cases inYear with
    | true =>
      simp only [if_true, Prod.mk.injEq] at hspan
      omega
    | false =>
      simp only [Bool.false_eq_true, if_false, Prod.mk.injEq] at hspan
      omega
  simp only [accepts, hplace, Names, Bool.and_eq_true, Bool.or_eq_true, beq_iff_eq,
    Date.weekday_eq h]
  refine and_congr_right fun hw => ?_
  rw [← hw, occurrences_to hinside.1, occurrences_from hinside.2,
    Int.tdiv_eq_ediv_of_nonneg (by omega), Int.tdiv_eq_ediv_of_nonneg (by omega)]
  have hback : last - first + 1 - 1 - (d.days - first) = last - d.days := by omega
  rw [hback]

/-! ### Listing and testing -/

namespace ByList

theorem mem_values_monthDays (days : List Int) (s : Stamp) (k : Nat) :
    k ∈ (monthDays days).values s ↔ (1 ≤ k ∧ k ≤ monthLength s.year s.month) ∧
      (monthDays days).accepts (s.set .day k) = true := by
  have hlen := monthLength_le s.year s.month
  simp only [values, mem_ascending, List.mem_filterMap, Option.map_eq_some_iff,
    resolveIndex_eq_some]
  constructor
  · rintro ⟨i, hi, place, ⟨hplace, hnames⟩, rfl⟩
    have hk : (place.toNat : Int) = place := by omega
    refine ⟨by omega, ?_⟩
    have hin : (⟨s.year, s.month, place.toNat⟩ : Date).inCalendar = true :=
      inCalendar_of_mem_month (by omega) (by omega)
    rw [accepts_monthDays_iff (s := s.set .day place.toNat) hin]
    exact ⟨i, hi, by simpa [Stamp.set, hk] using hnames⟩
  · rintro ⟨hk, haccepts⟩
    have hin : (⟨s.year, s.month, k⟩ : Date).inCalendar = true :=
      inCalendar_of_mem_month hk.1 hk.2
    rw [accepts_monthDays_iff (s := s.set .day k) hin] at haccepts
    obtain ⟨i, hi, hnames⟩ := haccepts
    exact ⟨i, hi, k, ⟨by omega, hnames⟩, Int.toNat_natCast k⟩

/-- The place of a day of a month in its year. -/
theorem dayOfYear_add {y : Int} {m k : Nat} (hk : 1 ≤ k ∧ k ≤ monthLength y m) :
    (⟨y, m, 1⟩ : Date).dayOfYear + k = (⟨y, m, k⟩ : Date).days - yearStart y + 1 := by
  rw [Date.dayOfYear_eq (inCalendar_of_mem_month (Nat.le_refl 1) (hk.1.trans hk.2)),
    Date.days_eq y m k]
  simp only
  omega

theorem mem_values_yearDays (days : List Int) (s : Stamp) (k : Nat) :
    k ∈ (yearDays days).values s ↔ (1 ≤ k ∧ k ≤ monthLength s.year s.month) ∧
      (yearDays days).accepts (s.set .day k) = true := by
  simp only [values, mem_ascending, List.mem_filterMap, Option.bind_eq_some_iff,
    Option.map_eq_some_iff, resolveIndex_eq_some]
  constructor
  · rintro ⟨i, hi, day, ⟨place, ⟨hbounds, hnames⟩, rfl⟩, hday⟩
    split_ifs at hday with hmonth
    rw [Option.some.injEq] at hday
    have hk : 1 ≤ k ∧ k ≤ monthLength s.year s.month := by omega
    have hadd := dayOfYear_add hk
    have hplace : place = (⟨s.year, s.month, k⟩ : Date).days - yearStart s.year + 1 := by omega
    have hin := inCalendar_of_mem_month hk.1 hk.2
    exact ⟨hk, (accepts_yearDays_iff (s := s.set .day k) hin days).2 ⟨i, hi, hplace ▸ hnames⟩⟩
  · rintro ⟨hk, haccepts⟩
    have hin := inCalendar_of_mem_month hk.1 hk.2
    obtain ⟨i, hi, hnames⟩ := (accepts_yearDays_iff (s := s.set .day k) hin days).1 haccepts
    have hbounds := Date.days_bounds hin
    have hlength := yearLength_of_hasYear ((Date.inCalendar_iff _).1 hin).1
    have hadd := dayOfYear_add hk
    simp only at hbounds hlength
    refine ⟨i, hi, k, ⟨_, ⟨?_, hnames⟩, ?_⟩, ?_⟩
    · simp only [Stamp.set, Stamp.date]
      omega
    · simp only [Stamp.set, Stamp.date]
      omega
    · rw [if_pos (by omega), Int.toNat_natCast]

/-- **A list of days lists the days that it accepts.** -/
theorem mem_values_days {list : ByList} (hday : list.field = .day) (s : Stamp) (k : Nat) :
    k ∈ list.values s ↔
      (1 ≤ k ∧ k ≤ monthLength s.year s.month) ∧ list.accepts (s.set .day k) = true := by
  cases list with
  | months | hours | minutes | seconds => simp [field] at hday
  | weeks => exact mem_daysWhere s _ k
  | weekdays days inYear => exact mem_daysWhere s (fun d => days.any (·.accepts inYear d)) k
  | monthDays days => exact mem_values_monthDays days s k
  | yearDays days => exact mem_values_yearDays days s k

end ByList

end Recurrence
