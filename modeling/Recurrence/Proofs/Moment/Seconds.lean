/-
# Moments and their seconds

A valid moment well inside the calendar has a number of seconds; a date counts
as its midnight, 24:00:00 as the midnight that follows, and a second of 60 as
the beginning of the next minute. The date-times that are written from a number
of seconds are ordered as the numbers are, and among all valid moments they come
before exactly those with more seconds.

Key definitions: `Moment.InReach`.
Key theorems: `Moment.seconds_of_valid`, `Moment.seconds_le_of_le`, `Moment.ofSeconds_lt_iff`,
`Moment.ofSeconds_le_iff`, `Moment.seconds_ofSeconds`.
-/
import Recurrence.Moment.Basic
import Recurrence.Proofs.Calendar.Days

namespace Recurrence

open Calendar

namespace Moment

/-- Whether a moment is valid and its year is so far from the ends of the
calendar that no offset leads out of it. -/
structure InReach (m : Moment) : Prop where
  valid : m.IsValid
  year : -200000 ≤ m.date.year ∧ m.date.year ≤ 200000

/-- The seconds of a time of day that is read with its date; a date is its
midnight. -/
def daytime (m : Moment) : Int :=
  match m.time with
  | none => 0
  | some t => if t.hour = 24 then daySeconds else t.seconds

theorem daytime_bounds {m : Moment} (h : m.IsValid) : 0 ≤ m.daytime ∧ m.daytime ≤ daySeconds := by
  rw [daytime, daySeconds]
  cases ht : m.time with
  | none => simp
  | some t =>
    have := h.2 t ht
    simp only [TimeOfDay.seconds]
    split <;> omega

/-- The days of years far from the ends of the calendar are far from its ends. -/
theorem days_inside {d : Date} (h : d.inCalendar = true) (hy : -200000 ≤ d.year)
    (hy' : d.year ≤ 200000) : firstDay + 1000 ≤ d.days ∧ d.days + 1000 ≤ lastDay := by
  obtain ⟨hlow, hhigh⟩ := Date.days_bounds h
  have hmono := yearStart_mono hy
  have hmono' := yearStart_mono (show d.year + 1 ≤ 200001 by omega)
  have hfirst : firstDay + 1000 ≤ yearStart (-200000) := by decide
  have hlast : yearStart 200001 + 1000 ≤ lastDay := by decide
  omega

/-- A valid moment has its seconds, unless it is the midnight that ends the
calendar. -/
theorem seconds_of_valid {m : Moment} (h : m.IsValid)
    (hend : ∀ t ∈ m.time, t.hour = 24 → m.date.days < lastDay) :
    m.seconds? = some (m.date.days * daySeconds + m.daytime) := by
  rw [seconds?, if_pos h.1, daytime]
  cases ht : m.time with
  | none => simp
  | some t =>
    have := h.2 t ht
    simp only
    split
    · rename_i hhour
      rw [if_pos (hend t ht hhour)]
    · rw [if_pos (by omega)]

/-- The seconds of a moment lie in its day, be its time valid or not. -/
theorem seconds_bounds {m : Moment} {s : Int} (h : m.seconds? = some s) :
    m.date.days * daySeconds ≤ s ∧ s ≤ m.date.days * daySeconds + daySeconds := by
  simp only [seconds?, Option.ite_none_right_eq_some, TimeOfDay.seconds, daySeconds] at h ⊢
  obtain ⟨-, h⟩ := h
  split at h
  · obtain rfl := Option.some.inj h
    omega
  · split_ifs at h with hhour hlast htime
    · obtain rfl := Option.some.inj h
      omega
    · obtain rfl := Option.some.inj h
      omega

theorem seconds_of_inReach {m : Moment} (h : m.InReach) :
    m.seconds? = some (m.date.days * daySeconds + m.daytime) := by
  have hin := days_inside h.valid.1 h.year.1 h.year.2
  exact seconds_of_valid h.valid fun _ _ _ => by omega

/-- Later moments have no fewer seconds. -/
theorem seconds_le_of_le {m m' : Moment} (hm : m.IsValid) (hm' : m'.IsValid) (h : m ≤ m') :
    m.date.days * daySeconds + m.daytime ≤ m'.date.days * daySeconds + m'.daytime := by
  have hday := daytime_bounds hm
  have hday' := daytime_bounds hm'
  simp only [daySeconds] at *
  rcases date_trichotomy m.date m'.date with hlt | heq | hlt
  · have := Date.days_lt_of_lt hm.1 hm'.1 hlt
    omega
  · rw [← not_lt, lt_iff, heq] at h
    simp only [true_and, not_or] at h
    rw [heq]
    have htimes := h.2
    simp only [daytime, daySeconds, TimeOfDay.seconds] at hday hday' ⊢
    cases ht : m.time with
    | none =>
      rw [ht] at hday
      simp only at hday ⊢
      omega
    | some t =>
      cases ht' : m'.time with
      | none => exact absurd (by rw [ht, ht']; trivial) htimes
      | some t' =>
        rw [ht, ht'] at htimes
        have := hm.2 t ht
        have := hm'.2 t' ht'
        simp only [timeLt, TimeOfDay.lt_iff] at htimes ⊢
        split <;> split <;> omega
  · exact absurd (Or.inl hlt) (not_lt.2 h)

/-! ### Date-times of numbers of seconds -/

/-- Whether the calendar holds the instant of so many seconds. -/
def InCalendar (s : Int) : Prop :=
  firstDay ≤ s / daySeconds ∧ s / daySeconds ≤ lastDay

theorem ofSeconds_date {s : Int} : (ofSeconds s).date = .ofDays (s / daySeconds) := rfl

theorem seconds_ofSeconds {s : Int} (h : InCalendar s) : (ofSeconds s).seconds? = some s := by
  have hin := Date.inCalendar_ofDays h.1 h.2
  rw [seconds?, ofSeconds_date, if_pos hin, Date.days_ofDays h.1 h.2]
  simp only [ofSeconds, daySeconds, TimeOfDay.seconds]
  rw [if_neg (by omega), if_pos (by omega), Option.some.injEq]
  omega

/-- **A date-time of seconds comes before the valid moments with more
seconds.** -/
theorem ofSeconds_lt_iff {s : Int} (h : InCalendar s) {m : Moment} (hm : m.IsValid) :
    ofSeconds s < m ↔ s < m.date.days * daySeconds + m.daytime := by
  have hin := Date.inCalendar_ofDays h.1 h.2
  have hdays := Date.days_ofDays h.1 h.2
  have hlt := Date.days_lt_days hin hm.1
  have heq : Date.ofDays (s / daySeconds) = m.date ↔ s / daySeconds = m.date.days :=
    ⟨fun h => by rw [← h, hdays], fun h => Date.days_inj hin hm.1 (hdays.trans h)⟩
  rw [hdays] at hlt
  rw [lt_iff, ofSeconds_date, ← hlt, heq, daytime]
  simp only [ofSeconds, daySeconds]
  cases ht : m.time with
  | none =>
    simp only [timeLt, and_false, or_false]
    omega
  | some t =>
    have := hm.2 t ht
    simp only [timeLt, TimeOfDay.lt_iff, TimeOfDay.seconds]
    split <;> omega

/-- **More seconds are a later date-time**, also outside the calendar. -/
theorem ofSeconds_lt_ofSeconds {s s' : Int} (h : s < s') : ofSeconds s < ofSeconds s' := by
  rw [lt_iff]
  simp only [ofSeconds, timeLt, TimeOfDay.lt_iff, daySeconds]
  rcases (Int.ediv_le_ediv (by decide) h.le : s / 86400 ≤ s' / 86400).lt_or_eq with hlt | heq
  · exact Or.inl (Date.ofDays_lt_ofDays hlt)
  · exact Or.inr ⟨by rw [heq], by omega⟩

theorem ofSeconds_le_iff {s s' : Int} : ofSeconds s ≤ ofSeconds s' ↔ s ≤ s' := by
  constructor
  · intro h
    by_contra hlt
    exact h (ofSeconds_lt_ofSeconds (not_le.1 hlt))
  · intro h
    rcases h.lt_or_eq with hlt | rfl
    · exact (ofSeconds_lt_ofSeconds hlt).le
    · exact le_refl _

theorem inCalendar_of_near {m : Moment} (h : m.InReach) {s : Int}
    (hs : (m.date.days - 3) * daySeconds ≤ s) (hs' : s ≤ (m.date.days + 3) * daySeconds) :
    InCalendar s := by
  have := days_inside h.valid.1 h.year.1 h.year.2
  simp only [daySeconds] at hs hs'
  simp only [InCalendar, daySeconds]
  omega

end Moment

end Recurrence
