/-
# Numbered weekdays count dates

The number of a weekday counts the dates on it, from the first of the month or
the year up to a date, or from the date up to the last. The dates of a span are
listed one by one, and a span that is cut at a date covers the days on that side
of it (`Covers.upTo`, `Covers.onFrom`).

Key definitions: `monthDates`, `yearDates`, `Covers`, `Date.countedWith`.
Key theorems: `covers_monthDates`, `covers_yearDates`, `Covers.countP_weekday`,
`OrdinalWeekday.accepts_iff_counts`.
-/
import Mathlib.Data.List.Nodup
import Recurrence.Proofs.Expansion.Lists

namespace Recurrence

open Calendar

namespace Calendar

/-! ### The dates of a span -/

/-- The dates of a month. -/
def monthDates (year : Int) (month : Nat) : List Date :=
  (List.range' 1 (monthLength year month)).map fun day => ⟨year, month, day⟩

/-- The dates of a year, month by month. -/
def yearDates (year : Int) : List Date :=
  (List.range' 1 12).flatMap (monthDates year)

theorem mem_monthDates {year : Int} {month : Nat} {e : Date} :
    e ∈ monthDates year month ↔ e.inCalendar = true ∧ e.year = year ∧ e.month = month := by
  simp only [monthDates, List.mem_map, List.mem_range'_1]
  constructor
  · rintro ⟨day, hday, rfl⟩
    exact ⟨inCalendar_of_mem_month hday.1 (by omega), rfl, rfl⟩
  · rintro ⟨he, rfl, rfl⟩
    have hday := Date.day_le he
    have hlen := Date.day_le_monthLength he
    exact ⟨e.day, by omega, rfl⟩

theorem mem_yearDates {year : Int} {e : Date} :
    e ∈ yearDates year ↔ e.inCalendar = true ∧ e.year = year := by
  simp only [yearDates, List.mem_flatMap, List.mem_range'_1, mem_monthDates]
  constructor
  · rintro ⟨month, -, he, hyear, -⟩
    exact ⟨he, hyear⟩
  · rintro ⟨he, hyear⟩
    obtain ⟨-, hm, hm', -⟩ := (Date.inCalendar_iff e).1 he
    exact ⟨e.month, by omega, he, hyear, rfl⟩

theorem nodup_monthDates (year : Int) (month : Nat) : (monthDates year month).Nodup :=
  (List.nodup_range' ..).map fun _ _ h => congrArg Date.day h

theorem nodup_yearDates (year : Int) : (yearDates year).Nodup := by
  refine List.nodup_flatMap.2 ⟨fun month _ => nodup_monthDates year month, ?_⟩
  refine List.Pairwise.imp (fun hne e he he' => hne ?_) (List.nodup_range' ..)
  rw [← (mem_monthDates.1 he).2.2, (mem_monthDates.1 he').2.2]

/-! ### Spans of days -/

/-- Whether a list holds the dates of the days from the first to the last, each
once. -/
structure Covers (dates : List Date) (first last : Int) : Prop where
  nodup : dates.Nodup
  mem_iff : ∀ e, e ∈ dates ↔ e.inCalendar = true ∧ first ≤ e.days ∧ e.days ≤ last
  within : firstDay ≤ first ∧ last ≤ lastDay

theorem covers_monthDates {d : Date} (h : d.inCalendar = true) :
    Covers (monthDates d.year d.month) (⟨d.year, d.month, 1⟩ : Date).days
      ((⟨d.year, d.month, 1⟩ : Date).days + monthLength d.year d.month - 1) := by
  have hlen := (Date.day_le h).1.trans (Date.day_le_monthLength h)
  have hdays := Date.days_eq d.year d.month
  have hin : ∀ {day}, 1 ≤ day → day ≤ monthLength d.year d.month →
      (⟨d.year, d.month, day⟩ : Date).inCalendar = true := inCalendar_of_mem_month
  refine ⟨nodup_monthDates _ _, fun e => ?_, ?_⟩
  · rw [mem_monthDates]
    refine and_congr_right fun he => ⟨?_, fun hspan => ?_⟩
    · rintro ⟨hyear, hmonth⟩
      have hday := Date.day_le he
      have hlast := Date.day_le_monthLength he
      have hcount : e.days = (⟨e.year, e.month, 1⟩ : Date).days + (e.day - 1) :=
        Date.days_eq e.year e.month e.day
      rw [hyear, hmonth] at hlast hcount
      omega
    · -- the day of the month with the number of the date is the date itself
      have hday : 1 ≤ (e.days - (⟨d.year, d.month, 1⟩ : Date).days + 1).toNat ∧
          (e.days - (⟨d.year, d.month, 1⟩ : Date).days + 1).toNat ≤ monthLength d.year d.month := by
        omega
      have := hdays (e.days - (⟨d.year, d.month, 1⟩ : Date).days + 1).toNat
      have heq := Date.days_inj he (hin hday.1 hday.2) (by omega)
      rw [heq]
      exact ⟨rfl, rfl⟩
  · have hfirst := Date.days_mem_calendar (hin (Nat.le_refl 1) hlen)
    have hlast := Date.days_mem_calendar (hin hlen (Nat.le_refl _))
    rw [hdays] at hlast
    omega

theorem covers_yearDates {year : Int} (h : hasYear year = true) :
    Covers (yearDates year) (yearStart year) (yearStart (year + 1) - 1) := by
  refine ⟨nodup_yearDates _, fun e => ?_, firstDay_le_of_hasYear h, le_lastDay_of_hasYear h⟩
  rw [mem_yearDates]
  refine and_congr_right fun he => ⟨?_, fun hspan => ?_⟩
  · rintro rfl
    have := Date.days_bounds he
    omega
  · rw [← Date.yearOfDay_days he]
    exact yearOfDay_eq hspan.1 (by omega)

namespace Covers

variable {dates : List Date} {first last : Int} {d : Date}

/-- The dates up to a date of the span cover the days up to it. -/
theorem upTo (h : Covers dates first last) (hd : d ∈ dates) :
    Covers (dates.filter fun e => ¬ d < e) first d.days := by
  obtain ⟨hin, -, hlast⟩ := (h.mem_iff d).1 hd
  refine ⟨h.nodup.filter _, fun e => ?_, h.within.1, hlast.trans h.within.2⟩
  rw [List.mem_filter, h.mem_iff, decide_eq_true_eq, and_assoc, and_congr_right_iff]
  intro he
  rw [← Date.days_lt_days hin he]
  omega

/-- The dates from a date of the span on cover the days from it on. -/
theorem onFrom (h : Covers dates first last) (hd : d ∈ dates) :
    Covers (dates.filter fun e => ¬ e < d) d.days last := by
  obtain ⟨hin, hfirst, -⟩ := (h.mem_iff d).1 hd
  refine ⟨h.nodup.filter _, fun e => ?_, h.within.1.trans hfirst, h.within.2⟩
  rw [List.mem_filter, h.mem_iff, decide_eq_true_eq, and_assoc, and_congr_right_iff]
  intro he
  rw [← Date.days_lt_days he hin]
  omega

/-- The numbers of the dates are the days of the span. -/
theorem map_days_perm (h : Covers dates first last) : (dates.map Date.days).Perm
    ((List.range (last + 1 - first).toNat).map fun i : Nat => first + (i : Int)) := by
  have hdates : (dates.map Date.days).Nodup := h.nodup.map_on fun e he e' he' =>
    Date.days_inj ((h.mem_iff e).1 he).1 ((h.mem_iff e').1 he').1
  have hdays : ((List.range (last + 1 - first).toNat).map fun i : Nat => first + (i : Int)).Nodup :=
    List.nodup_range.map fun i j hij => by omega
  refine (List.perm_ext_iff_of_nodup hdates hdays).2 fun n => ?_
  simp only [List.mem_map, List.mem_range]
  constructor
  · rintro ⟨e, he, rfl⟩
    obtain ⟨-, hfirst, hlast⟩ := (h.mem_iff e).1 he
    exact ⟨(e.days - first).toNat, by omega, by omega⟩
  · rintro ⟨i, hi, rfl⟩
    have hspan : firstDay ≤ first + i ∧ first + i ≤ lastDay := by
      have := h.within
      omega
    have hdays := Date.days_ofDays hspan.1 hspan.2
    refine ⟨.ofDays (first + i), (h.mem_iff _).2 ⟨?_, by omega, by omega⟩, hdays⟩
    exact Date.inCalendar_ofDays hspan.1 hspan.2

/-- The dates on a weekday are as many as the days on it. -/
theorem countP_weekday (h : Covers dates first last) (weekday : Weekday) :
    dates.countP (fun e => e.weekday = weekday) = occurrences first last weekday := by
  calc dates.countP (fun e => e.weekday = weekday)
      = (dates.map Date.days).countP (fun n => Weekday.ofDay n = weekday) := by
        rw [List.countP_map]
        refine List.countP_congr fun e he => ?_
        rw [Function.comp, Date.weekday_eq ((h.mem_iff e).1 he).1]
    _ = ((List.range (last + 1 - first).toNat).map fun i : Nat => first + (i : Int)).countP
          fun n => Weekday.ofDay n = weekday := h.map_days_perm.countP_eq _
    _ = occurrences first last weekday := List.countP_map

end Covers

end Calendar

/-! ### Numbered weekdays -/

namespace Date

variable {d : Date}

/-- The dates among which weekdays are counted: those of the year or of the month of
a date. -/
def countedWith (d : Date) (inYear : Bool) : List Date :=
  if inYear then yearDates d.year else monthDates d.year d.month

theorem mem_countedWith (h : d.inCalendar = true) (inYear : Bool) :
    d ∈ d.countedWith inYear := by
  cases inYear with
  | true => exact mem_yearDates.2 ⟨h, rfl⟩
  | false => exact mem_monthDates.2 ⟨h, rfl, rfl⟩

theorem covers_countedWith (h : d.inCalendar = true) (inYear : Bool) : ∃ first last,
    ((first, last) = if inYear then (yearStart d.year, yearStart (d.year + 1) - 1)
      else ((⟨d.year, d.month, 1⟩ : Date).days,
        (⟨d.year, d.month, 1⟩ : Date).days + monthLength d.year d.month - 1)) ∧
    Covers (d.countedWith inYear) first last := by
  cases inYear with
  | true => exact ⟨_, _, rfl, covers_yearDates ((inCalendar_iff d).1 h).1⟩
  | false => exact ⟨_, _, rfl, covers_monthDates h⟩

end Date

/-- **A numbered weekday counts dates.** A date is accepted if it is the weekday
and, if there is a number, exactly that many dates of its month or year are on
the weekday and not after it, or not before it if the number is negative. -/
theorem OrdinalWeekday.accepts_iff_counts {d : Date} (h : d.inCalendar = true)
    (entry : OrdinalWeekday) (inYear : Bool) :
    entry.accepts inYear d = true ↔ d.weekday = entry.weekday ∧
      (entry.number = 0 ∨ ∃ k : Nat, 0 < k ∧
        (entry.number = k ∧ ((d.countedWith inYear).filter fun e => ¬ d < e).countP
            (fun e => e.weekday = entry.weekday) = k ∨
          entry.number = -k ∧ ((d.countedWith inYear).filter fun e => ¬ e < d).countP
            (fun e => e.weekday = entry.weekday) = k)) := by
  obtain ⟨first, last, hspan, hcovers⟩ := Date.covers_countedWith h inYear
  have hd := Date.mem_countedWith h inYear
  obtain ⟨-, hfirst, hlast⟩ := (hcovers.mem_iff d).1 hd
  rw [accepts_iff h entry inYear hspan, Names, Date.weekday_eq h,
    (hcovers.upTo hd).countP_weekday, (hcovers.onFrom hd).countP_weekday]
  refine and_congr_right fun hweekday => or_congr_right ?_
  -- the date itself is counted from either side, so neither number is 0
  have hupTo := occurrences_to hfirst
  have honFrom := occurrences_from hlast
  rw [hweekday] at hupTo honFrom
  constructor
  · rintro (hnumber | hnumber)
    · exact ⟨_, by omega, Or.inl ⟨hnumber, rfl⟩⟩
    · exact ⟨_, by omega, Or.inr ⟨hnumber, rfl⟩⟩
  · rintro ⟨k, -, ⟨hnumber, rfl⟩ | ⟨hnumber, rfl⟩⟩
    · exact Or.inl hnumber
    · exact Or.inr hnumber

/-- The last Thursday but one of February 2024: two Thursdays of the month are not
before it. -/
theorem OrdinalWeekday.accepts_iff_counts_leapFebruary :
    (⟨2024, 2, 22⟩ : Date).inCalendar = true ∧
      (⟨-2, .thursday⟩ : OrdinalWeekday).accepts false ⟨2024, 2, 22⟩ = true :=
  ⟨by decide, (accepts_iff_counts (by decide) ⟨-2, .thursday⟩ false).2
    ⟨by decide, Or.inr ⟨2, by decide, Or.inr ⟨by decide, by decide⟩⟩⟩⟩

end Recurrence
