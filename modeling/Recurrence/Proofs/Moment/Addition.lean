/-
# Moments and the time that passes

A moment well inside the calendar, moved by some seconds, is the moment of its own seconds
and those, as long as the calendar holds it. It is later than the moment it was moved from,
or the same, exactly when the seconds are not negative, although 24:00:00 and a second of 60
are spelled anew on the way. It stays a date exactly when it is a date that was moved by
whole days.

Key theorems: `Moment.add?_eq_some_iff`, `Moment.seconds_of_add?`, `Moment.le_add?_iff`,
`Moment.hasTime_of_add?`.
-/
import Recurrence.Proofs.Moment.Seconds

namespace Recurrence

open Calendar

namespace Moment

variable {m e : Moment} {n : Int}

theorem inCalendar_iff_bounds (s : Int) :
    InCalendar s ↔ firstDay * daySeconds ≤ s ∧ s < (lastDay + 1) * daySeconds := by
  simp only [InCalendar, daySeconds]
  omega

/-- The seconds of a date are those of its day. -/
theorem daytime_of_date (h : m.time = none) : m.daytime = 0 := by
  rw [daytime, h]

/-- **What a moment becomes when time passes.** -/
theorem add?_eq_some_iff (h : m.InReach) : m.add? n = some e ↔
    InCalendar (m.date.days * daySeconds + m.daytime + n) ∧
      e = if m.time = none ∧ n % daySeconds = 0 then
        (ofSeconds (m.date.days * daySeconds + m.daytime + n)).datePart
      else ofSeconds (m.date.days * daySeconds + m.daytime + n) := by
  unfold add?
  by_cases hdate : m.time = none ∧ n % daySeconds = 0
  · have hdays : m.date.days + n / daySeconds =
        (m.date.days * daySeconds + m.daytime + n) / daySeconds := by
      rw [daytime_of_date hdate.1]
      simp only [daySeconds]
      omega
    simp only [if_pos hdate, Option.ite_none_right_eq_some, Option.some.injEq, hdays,
      h.valid.1, true_and, InCalendar]
    exact and_congr_right fun _ => eq_comm
  · rw [if_neg hdate, if_neg hdate, seconds_of_inReach h, Option.bind_some,
      inCalendar_iff_bounds, Option.ite_none_right_eq_some, Option.some.injEq]
    exact and_congr_right fun _ => eq_comm

theorem exists_add?_iff (h : m.InReach) : (∃ e, m.add? n = some e) ↔
    InCalendar (m.date.days * daySeconds + m.daytime + n) := by
  simp only [add?_eq_some_iff h, exists_and_left, exists_eq, and_true]

/-- Whole days after a date begins a date. -/
theorem days_of_whole (h : m.time = none ∧ n % daySeconds = 0) :
    (m.date.days * daySeconds + m.daytime + n) / daySeconds * daySeconds =
      m.date.days * daySeconds + m.daytime + n := by
  rw [daytime_of_date h.1]
  have := h.2
  simp only [daySeconds] at this ⊢
  omega

/-- **The seconds that pass are added to those of the moment.** -/
theorem seconds_of_add? (h : m.InReach) (he : m.add? n = some e) :
    e.seconds? = some (m.date.days * daySeconds + m.daytime + n) := by
  obtain ⟨hin, rfl⟩ := (add?_eq_some_iff h).1 he
  split
  · rename_i hdate
    rw [seconds?, datePart, ofSeconds_date, if_pos (Date.inCalendar_ofDays hin.1 hin.2),
      Date.days_ofDays hin.1 hin.2, days_of_whole hdate]
  · exact seconds_ofSeconds hin

/-- **A moment is not after what it becomes exactly when no negative time passes.** -/
theorem le_add?_iff (h : m.InReach) (he : m.add? n = some e) : m ≤ e ↔ 0 ≤ n := by
  obtain ⟨hin, rfl⟩ := (add?_eq_some_iff h).1 he
  have hlt : ofSeconds (m.date.days * daySeconds + m.daytime + n) < m ↔ n < 0 := by
    rw [ofSeconds_lt_iff hin h.valid]
    omega
  split
  · rename_i hdate
    have hsame : ¬ timeLt none m.time := by
      rw [hdate.1]
      exact timeLt_irrefl none
    have hdays := Date.days_lt_days (Date.inCalendar_ofDays hin.1 hin.2) h.valid.1
    rw [Date.days_ofDays hin.1 hin.2] at hdays
    rw [← not_lt, lt_iff, datePart, ofSeconds_date, ← hdays]
    have hwhole := days_of_whole hdate
    rw [daytime_of_date hdate.1] at hwhole ⊢
    simp only [hsame, and_false, or_false, daySeconds] at hwhole ⊢
    omega
  · rw [← not_lt, hlt, not_lt]

/-- **Only a date that is moved by whole days becomes a date.** -/
theorem hasTime_of_add? (h : m.InReach) (he : m.add? n = some e) :
    e.hasTime = false ↔ m.hasTime = false ∧ daySeconds ∣ n := by
  obtain ⟨-, rfl⟩ := (add?_eq_some_iff h).1 he
  have hdate : m.hasTime = false ↔ m.time = none := by
    rw [hasTime, Option.isSome_eq_false_iff, Option.isNone_iff_eq_none]
  rw [hdate, Int.dvd_iff_emod_eq_zero]
  split
  · rename_i hwhole
    exact iff_of_true rfl hwhole
  · rename_i hwhole
    exact iff_of_false (by simp [hasTime, ofSeconds]) hwhole

end Moment

end Recurrence
