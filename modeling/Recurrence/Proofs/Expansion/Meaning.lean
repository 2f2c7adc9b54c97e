/-
# What a rule means

A rule selects the existing dates and times whose period lies a whole number of
intervals after that of the start, which every list of the rule accepts, and
which repeat the start in whatever the rule leaves open. Nothing here tells how
they are found. Periods are told apart by their numbers (`Stamp.periodIndex`),
which grow as the stamps do.

Key definitions: `Stamp.Occurs`, `Stamp.periodIndex`, `Rule.Accepts`, `Rule.Repeats`,
`Rule.Selects`.
Key theorems: `Stamp.lt_iff_seconds`, `Stamp.periodIndex_mono`, `Stamp.periodStart_le_iff`,
`Stamp.periodStart_eq_iff`.
-/
import Recurrence.Expansion.Plan
import Recurrence.Proofs.Calendar.Weeks

namespace Recurrence

open Calendar

/-! ### Dates and times that exist -/

namespace Stamp

/-- Whether a stamp is a date of the calendar with a time that clocks show on
every day. -/
structure Occurs (s : Stamp) : Prop where
  date : s.date.inCalendar = true
  hour : s.hour ≤ 23
  minute : s.minute ≤ 59
  second : s.second ≤ 59

/-- The number of the period of a frequency that holds a stamp. -/
def periodIndex (s : Stamp) (frequency : Frequency) (weekStart : Weekday) : Int :=
  match frequency with
  | .yearly => s.year
  | .monthly => s.year * 12 + s.month
  | .weekly => weekIndex weekStart s.date.days
  | .daily => s.date.days
  | .hourly => s.date.days * 24 + s.hour
  | .minutely => (s.date.days * 24 + s.hour) * 60 + s.minute
  | .secondly => ((s.date.days * 24 + s.hour) * 60 + s.minute) * 60 + s.second

end Stamp

/-! ### What the lists accept -/

/-- Whether an entry of a list names a place among `length` places, from the
first on or back from the last. -/
def IsPlace (index place length : Int) : Prop :=
  index = place ∨ index = place - length - 1

/-- Whether an entry names a day of a span: any day on its weekday, or the one
that its number counts from either end of the span. -/
def OrdinalWeekday.Names (entry : OrdinalWeekday) (first last day : Int) : Prop :=
  Weekday.ofDay day = entry.weekday ∧
    (entry.number = 0 ∨ entry.number = occurrences first day entry.weekday ∨
      entry.number = -(occurrences day last entry.weekday : Int))

namespace Rule

/-- The days of the year or the month of a stamp within which weekdays are
counted. -/
def countingSpan (rule : Rule) (b : Stamp) : Int × Int :=
  if rule.countsInYear then (yearStart b.year, yearStart (b.year + 1) - 1)
  else
    let first := (⟨b.year, b.month, 1⟩ : Date).days
    (first, first + monthLength b.year b.month - 1)

/-- Whether all lists of a rule that select days accept a stamp's date. -/
structure Accepts (rule : Rule) (b : Stamp) : Prop where
  months : rule.byMonth ≠ [] → b.month ∈ rule.byMonth
  monthDays : rule.byMonthDay ≠ [] →
    ∃ i ∈ rule.byMonthDay, IsPlace i b.day (monthLength b.year b.month)
  yearDays : rule.byYearDay ≠ [] →
    ∃ i ∈ rule.byYearDay, IsPlace i (b.date.days - yearStart b.year + 1) (yearLength b.year)
  weeks : rule.byWeekNo ≠ [] → ∃ i ∈ rule.byWeekNo,
    i = weekFromStart rule.firstWeekday b.date.days ∨
      i = -weekFromEnd rule.firstWeekday b.date.days
  weekdays : rule.byDay ≠ [] → ∃ entry ∈ rule.byDay,
    entry.Names (rule.countingSpan b).1 (rule.countingSpan b).2 b.date.days

/-! ### What is left open -/

/-- Whether nothing in a rule tells the days of its years or months. -/
def leavesDay (rule : Rule) : Prop :=
  match rule.frequency with
  | .yearly =>
    rule.byYearDay = [] ∧ rule.byMonthDay = [] ∧ rule.byWeekNo = [] ∧ rule.byDay = []
  | .monthly => rule.byMonthDay = [] ∧ rule.byDay = []
  | _ => False

/-- Whether a stamp repeats the start's date in what a rule leaves open. -/
structure Repeats (rule : Rule) (start b : Stamp) : Prop where
  month : rule.frequency = .yearly → rule.byMonth = [] → rule.leavesDay → b.month = start.month
  day : rule.leavesDay → b.day = start.day
  weekday : rule.frequency = .weekly → rule.byDay = [] →
    Weekday.ofDay b.date.days = Weekday.ofDay start.date.days

/-- Whether a list of a rule accepts a field of a stamp's time, or the field
repeats the start's if the rule leaves it open. -/
structure FitsTime (rule : Rule) (start b : Stamp) (f : TimeField) : Prop where
  listed : f.values ≠ [] → b.get f.field ∈ f.values
  left : f.values = [] → f.frequency.rank < rule.frequency.rank →
    b.get f.field = start.get f.field

/-- **What a rule selects**, for a start that is a date or a date-time. The
lists of times of a rule say nothing of dates without a time. -/
structure Selects (rule : Rule) (start : Stamp) (dateOnly : Bool) (b : Stamp) : Prop where
  occurs : b.Occurs
  period : ∃ k : Nat, b.periodIndex rule.frequency rule.firstWeekday =
    start.periodIndex rule.frequency rule.firstWeekday + rule.interval * k
  accepts : rule.Accepts b
  repeats : rule.Repeats start b
  times : if dateOnly then b.hour = 0 ∧ b.minute = 0 ∧ b.second = 0
    else ∀ f ∈ rule.timeFields, rule.FitsTime start b f

/-! ### Starts -/

/-- Whether a rule can be expanded from a start: an existing date of the years
from 1 to 9999, with a time that clocks show on every day, or without one if the
rule does not repeat within the day. -/
structure StartsAt (rule : Rule) (start : Moment) : Prop where
  date : start.date.inCalendar = true
  year : 1 ≤ start.date.year ∧ start.date.year ≤ 9999
  time : ∀ t ∈ start.time, t.hour ≤ 23 ∧ t.minute ≤ 59 ∧ t.second ≤ 59
  dateOnly : start.time = none → Frequency.daily.rank ≤ rule.frequency.rank

end Rule

/-- Whether limits let an expansion from a year end only at their last year,
which is at most 9999. -/
structure Limits.AmpleFrom (limits : Limits) (year : Int) : Prop where
  last : limits.maxYear ≤ 9999
  patience : limits.maxYear - year + 2 ≤ limits.maxYearsBetweenInstances

/-! ### Periods in order -/

namespace Stamp

/-- Stamps that exist are ordered as their seconds are. -/
theorem lt_iff_seconds {a b : Stamp} (ha : a.Occurs) (hb : b.Occurs) (weekStart : Weekday) :
    a < b ↔ a.periodIndex .secondly weekStart < b.periodIndex .secondly weekStart := by
  have := ha.hour; have := ha.minute; have := ha.second
  have := hb.hour; have := hb.minute; have := hb.second
  simp only [periodIndex]
  rcases Moment.date_trichotomy a.date b.date with hlt | heq | hlt
  · have := Date.days_lt_of_lt ha.date hb.date hlt
    rw [Date.lt_iff] at hlt
    simp only [date] at hlt
    rw [lt_iff]
    omega
  · rw [heq]
    rw [date, date, Date.mk.injEq] at heq
    rw [lt_iff]
    omega
  · have := Date.days_lt_of_lt hb.date ha.date hlt
    rw [Date.lt_iff] at hlt
    simp only [date] at hlt
    rw [lt_iff]
    omega

theorem le_iff_seconds {a b : Stamp} (ha : a.Occurs) (hb : b.Occurs) (weekStart : Weekday) :
    a ≤ b ↔ a.periodIndex .secondly weekStart ≤ b.periodIndex .secondly weekStart := by
  rw [← not_lt, ← not_lt, lt_iff_seconds hb ha weekStart]

/-- **Later stamps lie in later periods.** -/
theorem periodIndex_mono {a b : Stamp} (ha : a.Occurs) (hb : b.Occurs) (h : a ≤ b)
    (frequency : Frequency) (weekStart : Weekday) :
    a.periodIndex frequency weekStart ≤ b.periodIndex frequency weekStart := by
  have hs := (le_iff_seconds ha hb weekStart).1 h
  have := ha.hour; have := ha.minute; have := ha.second
  have := hb.hour; have := hb.minute; have := hb.second
  cases frequency with
  | yearly => exact year_le_of_le h
  | monthly =>
    obtain ⟨-, ham, ham', -⟩ := (Date.inCalendar_iff a.date).1 ha.date
    obtain ⟨-, hbm, hbm', -⟩ := (Date.inCalendar_iff b.date).1 hb.date
    rw [le_iff] at h
    simp only [periodIndex]
    simp only [date] at ham ham' hbm hbm'
    omega
  | weekly | daily | hourly | minutely | secondly =>
    simp only [periodIndex, weekIndex] at hs ⊢
    omega

/-- The first instant of a period exists and lies in the period. -/
theorem periodStart_spec {s : Stamp} (h : s.Occurs) (hf : firstDay + 6 ≤ s.date.days)
    (frequency : Frequency) (weekStart : Weekday) :
    (s.periodStart frequency weekStart).Occurs ∧
      (s.periodStart frequency weekStart).periodIndex frequency weekStart =
        s.periodIndex frequency weekStart := by
  obtain ⟨hy, hm, hm', hd, hd'⟩ := (Date.inCalendar_iff s.date).1 h.date
  cases frequency with
  | yearly =>
    exact ⟨⟨Date.inCalendar_newYear hy, Nat.zero_le _, Nat.zero_le _, Nat.zero_le _⟩, rfl⟩
  | monthly =>
    refine ⟨⟨?_, Nat.zero_le _, Nat.zero_le _, Nat.zero_le _⟩, rfl⟩
    rw [Date.inCalendar_iff]
    exact ⟨hy, hm, hm', Nat.le_refl 1, hd.trans hd'⟩
  | weekly =>
    obtain ⟨hin, hdays⟩ := Date.startOfWeek_spec h.date weekStart hf
    have hdate : (s.periodStart .weekly weekStart).date = s.date.startOfWeek weekStart := rfl
    refine ⟨⟨hdate ▸ hin, Nat.zero_le _, Nat.zero_le _, Nat.zero_le _⟩, ?_⟩
    have := Weekday.index_lt weekStart
    simp only [periodIndex, hdate, hdays, midweek, weekIndex]
    omega
  | daily => exact ⟨⟨h.date, Nat.zero_le _, Nat.zero_le _, Nat.zero_le _⟩, rfl⟩
  | hourly => exact ⟨⟨h.date, h.hour, Nat.zero_le _, Nat.zero_le _⟩, rfl⟩
  | minutely => exact ⟨⟨h.date, h.hour, h.minute, Nat.zero_le _⟩, rfl⟩
  | secondly => exact ⟨h, rfl⟩

/-- A stamp is not before the beginning of a period exactly if it lies in that
period or a later one. -/
theorem periodStart_le_iff {a b : Stamp} (ha : a.Occurs) (hb : b.Occurs)
    (hf : firstDay + 6 ≤ a.date.days) (frequency : Frequency) (weekStart : Weekday) :
    a.periodStart frequency weekStart ≤ b ↔
      a.periodIndex frequency weekStart ≤ b.periodIndex frequency weekStart := by
  obtain ⟨hp, hindex⟩ := periodStart_spec ha hf frequency weekStart
  constructor
  · intro h
    rw [← hindex]
    exact periodIndex_mono hp hb h frequency weekStart
  · intro h
    have := hb.hour; have := hb.minute; have := hb.second
    obtain ⟨-, ham, ham', -⟩ := (Date.inCalendar_iff a.date).1 ha.date
    obtain ⟨-, hbm, hbm', hbd, -⟩ := (Date.inCalendar_iff b.date).1 hb.date
    simp only [date] at ham ham' hbm hbm' hbd
    cases frequency with
    | yearly | monthly =>
      simp only [periodIndex] at h
      simp only [le_iff, periodStart, startOfYear, truncate]
      omega
    | weekly =>
      obtain ⟨hin, hdays⟩ := Date.startOfWeek_spec ha.date weekStart hf
      have hdate : (a.periodStart .weekly weekStart).date = a.date.startOfWeek weekStart := rfl
      have hzero : (a.periodStart .weekly weekStart).hour = 0 ∧
        (a.periodStart .weekly weekStart).minute = 0 ∧
        (a.periodStart .weekly weekStart).second = 0 := ⟨rfl, rfl, rfl⟩
      rw [le_iff_seconds hp hb weekStart]
      simp only [periodIndex, weekIndex] at h
      simp only [periodIndex, hdate, hdays, hzero, midweek, weekIndex]
      have := Weekday.index_lt weekStart
      omega
    | daily | hourly | minutely | secondly =>
      rw [le_iff_seconds hp hb weekStart]
      unfold periodIndex at h
      simp only [periodIndex, periodStart, truncate, date]
      simp only [date] at h
      omega

theorem periodStart_eq_iff {a b : Stamp} (ha : a.Occurs) (hb : b.Occurs)
    (hfa : firstDay + 6 ≤ a.date.days) (hfb : firstDay + 6 ≤ b.date.days)
    (frequency : Frequency) (weekStart : Weekday) :
    a.periodStart frequency weekStart = b.periodStart frequency weekStart ↔
      a.periodIndex frequency weekStart = b.periodIndex frequency weekStart := by
  obtain ⟨hpa, ha'⟩ := periodStart_spec ha hfa frequency weekStart
  obtain ⟨hpb, hb'⟩ := periodStart_spec hb hfb frequency weekStart
  constructor
  · intro h
    rw [← ha', h, hb']
  · intro h
    refine le_antisymm ?_ ?_
    · rw [periodStart_le_iff ha hpb hfa, hb', h]
    · rw [periodStart_le_iff hb hpa hfb, ha', h]

end Stamp

end Recurrence
