/-
# Passing to a date anywhere in the calendar

The iterator of a rule may be told to pass to any valid date, and in a set to the
instants of other lines, which may lie a day beyond the calendar. Candidates lie in
the years from 0 on, so they are never dropped for a date near the beginning of the
calendar, and those that are dropped have an instant that exists. So the iterator is
a cursor over its instants for all such dates, whatever the last year is, as long as
no two offsets lie a whole day apart or no candidate carries, and always if it has a
count or positions.

Key definitions: `Moment.Regular`, `Rule.PassesSafely`.
Key theorems: `Zone.regular_localToUtc`, `RuleSource.instant_lt_of_lt_dayBefore`,
`RuleSource.follows_moments`.
-/
import Recurrence.Proofs.Source.Rule

namespace Recurrence

open Calendar

/-! ### Moments beyond the calendar -/

/-- Every day number is found again, also outside the calendar. -/
theorem Date.days_ofDays_self (n : Int) : (ofDays n).days = n := by
  obtain ⟨hstart, -⟩ := yearOfDay_spec n
  obtain ⟨-, -, hbefore, -⟩ := month_ofDays n
  simp only [ofDays, days] at hbefore ⊢
  omega

/-- Only the days of the calendar lie in its years. -/
theorem Date.bounds_of_hasYear {n : Int} (h : hasYear (ofDays n).year = true) :
    firstDay ≤ n ∧ n ≤ lastDay := by
  obtain ⟨hstart, hend⟩ := yearOfDay_spec n
  have hfirst := firstDay_le_of_hasYear h
  have hlast := le_lastDay_of_hasYear h
  simp only [ofDays] at hfirst hlast
  omega

/-- Whether a date is in the calendar, or in a year beyond it. -/
def Date.Regular (d : Date) : Prop :=
  d.inCalendar = true ∨ hasYear d.year = false ∧ d.day ≤ 31

theorem Date.regular_ofDays (n : Int) : (ofDays n).Regular := by
  cases hyear : hasYear (ofDays n).year with
  | true =>
    obtain ⟨hfirst, hlast⟩ := bounds_of_hasYear hyear
    exact Or.inl (inCalendar_ofDays hfirst hlast)
  | false =>
    refine Or.inr ⟨hyear, ?_⟩
    obtain ⟨-, -, -, hday⟩ := month_ofDays n
    have hlength := @daysInMonth_le (gregorianLeap (ofDays n).year) (ofDays n).month
    simp only [ofDays] at hday hlength ⊢
    omega

namespace Moment

/-- Whether a moment is valid, or lies in a year beyond the calendar. -/
def Regular (m : Moment) : Prop :=
  m.IsValid ∨ hasYear m.date.year = false ∧ m.date.day ≤ 31

theorem Regular.date {m : Moment} (h : m.Regular) : m.date.Regular :=
  h.imp And.left id

theorem IsValid.regular {m : Moment} (h : m.IsValid) : m.Regular := Or.inl h

/-- A moment that stands for an instant is valid if it is regular. -/
theorem Regular.valid {m : Moment} (h : m.Regular) {s : Int} (hs : m.seconds? = some s) :
    m.IsValid := by
  refine h.resolve_right fun hyear => ?_
  have hdate : m.date.inCalendar = true := by
    by_contra hout
    rw [seconds?, if_neg hout] at hs
    exact absurd hs (by simp)
  rw [((Date.inCalendar_iff _).1 hdate).1] at hyear
  exact absurd hyear.1 (by simp)

/-- The seconds of a valid moment are those of its day and its time. -/
theorem IsValid.seconds_eq {m : Moment} (h : m.IsValid) {s : Int} (hs : m.seconds? = some s) :
    s = m.date.days * daySeconds + m.daytime := by
  by_cases hend : ∀ t ∈ m.time, t.hour = 24 → m.date.days < lastDay
  · rw [seconds_of_valid h hend] at hs
    exact (Option.some.inj hs).symm
  · simp only [not_forall] at hend
    obtain ⟨t, ht, hhour, hlast⟩ := hend
    rw [seconds?, if_pos h.1, Option.mem_def.1 ht] at hs
    simp only [hhour, hlast, if_true, if_false] at hs
    exact absurd hs (by simp)

theorem regular_ofSeconds (s : Int) : (ofSeconds s).Regular := by
  refine (Date.regular_ofDays (s / daySeconds)).imp (fun hdate => ⟨hdate, fun t ht => ?_⟩) id
  obtain rfl := Option.some.inj ht
  simp only [daySeconds]
  omega

end Moment

/-- A moment that stands for no instant shows the same on all clocks. -/
theorem Zone.utcToLocal_cases (zone : Zone) (m : Moment) : zone.utcToLocal m = m ∨
    ∃ u, m.seconds? = some u ∧ zone.utcToLocal m = .ofSeconds (zone.fromUtc u) := by
  unfold utcToLocal
  split
  · cases hu : m.seconds? with
    | none => exact Or.inl rfl
    | some u => exact Or.inr ⟨u, rfl, rfl⟩
  · exact Or.inl rfl

/-- What is converted to UTC is regular. -/
theorem Zone.regular_localToUtc (zone : Zone) {m : Moment} (h : m.IsValid) :
    (zone.localToUtc m).Regular := by
  unfold localToUtc
  split
  · cases m.seconds? with
    | none => exact h.regular
    | some s => exact Moment.regular_ofSeconds _
  · exact h.regular

/-! ### Candidates that are dropped -/

theorem Date.days_lt_of_lt_ofDayNumber {d : Date} (hd : d.inCalendar = true) {n : Int}
    (hn : n ≤ lastDay) (h : d < ofDayNumber n) : d.days < n := by
  have hfirst := (days_mem_calendar hd).1
  by_cases hin : firstDay ≤ n
  · rw [ofDayNumber_eq hin hn] at h
    have hlt := days_lt_of_lt hd (inCalendar_ofDays hin hn) h
    rwa [days_ofDays_self] at hlt
  · have hzero : firstDay < 0 := by decide
    have hrange : firstDay ≤ lastDay := by decide
    rw [ofDayNumber, if_neg (fun hb => hin hb.1), if_pos (by omega)] at h
    have hlt := days_lt_of_lt hd (inCalendar_ofDays le_rfl hrange) h
    rw [days_ofDays_self] at hlt
    omega

/-- A candidate of the year 0 or later lies before the day before a date only if
that is in the calendar, two days later. -/
theorem Stamp.days_of_lt_addDays {c : Stamp} (hc : c.date.inCalendar = true) (hy : 0 ≤ c.year)
    {d : Date} (hd : d.Regular) (h : c < .ofDate (d.addDays (-1))) :
    d.inCalendar = true ∧ c.date.days + 2 ≤ d.days := by
  have hcut : ∀ n, d.dayNumber = n → n ≤ lastDay → c.date.days < n - 1 := by
    rintro n rfl hn
    exact Date.days_lt_of_lt_ofDayNumber hc (by omega) (date_lt_of_lt_ofDate h)
  rcases hd with hd | ⟨hyear, hday⟩
  · have hlt := hcut d.days (Date.dayNumber_eq hd) (Date.days_mem_calendar hd).2
    exact ⟨hd, by omega⟩
  · -- a date beyond the calendar counts from the calendar's first day
    have hnumber : d.dayNumber ≤ firstDay + 30 := by
      simp only [Date.dayNumber, Date.monthStart, hyear, Bool.false_eq_true, if_false]
      split <;> omega
    have hstart := (Date.days_bounds hc).1
    have hmono := yearStart_mono (show 0 ≤ c.date.year from hy)
    have hfirst : firstDay + 31 ≤ yearStart 0 := by decide
    have hlast : firstDay + 30 ≤ lastDay := by decide
    have hlt := hcut _ rfl (by omega)
    omega

namespace RuleSource

variable {s : RuleSource} {offsets : List Int} {c : Stamp} {d : Moment}

/-- The instant of a candidate before the last day of the calendar. -/
theorem instant_of_lt_lastDay (hz : s.zone.HasOffsets offsets) (hc : c.IsValid)
    (hlast : c.date.days < lastDay) :
    (s.dateOnly = true ∧ s.instant c = ⟨c.date, none⟩) ∨
      s.dateOnly = false ∧ ∃ o ∈ offsets, s.instant c =
        .ofSeconds (c.date.days * Moment.daySeconds + (c.toMoment false).daytime - o) := by
  cases hs : s.dateOnly with
  | true => exact Or.inl ⟨rfl, by rw [instant, hs]; exact Zone.localToUtc_of_date rfl⟩
  | false =>
    obtain ⟨o, ho, hutc⟩ := hz.toUtc (c.date.days * Moment.daySeconds + (c.toMoment false).daytime)
    have hseconds := Moment.seconds_of_valid (Stamp.toMoment_isValid hc false) fun _ _ _ => hlast
    have htime : (c.toMoment false).hasTime = true := rfl
    refine Or.inr ⟨rfl, o, ho, ?_⟩
    rw [instant, hs, Zone.localToUtc, if_pos htime, hseconds]
    exact congrArg Moment.ofSeconds hutc

/-- An instant whose offset leads to less than a day after its candidate's comes
before a date two days after the candidate. -/
theorem instant_lt_of_days (hz : s.zone.HasOffsets offsets) (hm : Zone.Moderate offsets)
    (hc : c.IsValid) (hd : d.date.inCalendar = true) (h : c.date.days + 2 ≤ d.date.days) :
    s.instant c < d := by
  have hlast := (Date.days_mem_calendar hd).2
  rcases instant_of_lt_lastDay hz hc (by omega) with ⟨-, hinstant⟩ | ⟨-, o, ho, hinstant⟩
  · rw [hinstant]
    exact Or.inl ((Date.days_lt_days hc.date hd).1 (by omega))
  · have hdaytime := Moment.daytime_bounds (Stamp.toMoment_isValid hc false)
    have hsmall := hm.small o ho
    rw [hinstant]
    refine Or.inl ?_
    rw [Moment.ofSeconds_date, ← Date.ofDays_days hd]
    refine Date.ofDays_lt_ofDays ?_
    simp only [Moment.daySeconds] at hdaytime ⊢
    omega

/-- **A candidate that is dropped gives an instant before the date**, unless it
carries and two offsets lie a whole day apart. -/
theorem instant_lt_of_lt_dayBefore (hz : s.zone.HasOffsets offsets) (hm : Zone.Moderate offsets)
    (hc : c.IsValid) (hy : 0 ≤ c.year) (hd : d.Regular)
    (hclose : (∀ o ∈ offsets, ∀ o' ∈ offsets, o' - o ≠ 86400) ∨ c.hour ≤ 23 ∧ c.second ≤ 59)
    (h : c < s.dayBefore d) : s.instant c < d := by
  unfold dayBefore at h
  rcases s.zone.utcToLocal_cases d with hlocal | ⟨u, hu, hlocal⟩
  · rw [hlocal] at h
    obtain ⟨hin, hdays⟩ := Stamp.days_of_lt_addDays hc.date hy hd.date h
    exact instant_lt_of_days hz hm hc hin hdays
  · obtain ⟨o', ho', hfrom⟩ := hz.fromUtc u
    rw [hlocal, hfrom, Moment.ofSeconds_date] at h
    obtain ⟨hin, hdays⟩ := Stamp.days_of_lt_addDays hc.date hy (Date.regular_ofDays _) h
    have hlast := (Date.days_mem_calendar hin).2
    rw [Date.days_ofDays_self] at hdays hlast
    have hvalid := hd.valid hu
    have hbounds := Moment.seconds_bounds hu
    have hsmall' := hm.small o' ho'
    simp only [Moment.daySeconds] at hdays hlast hbounds
    rcases instant_of_lt_lastDay hz hc (by omega) with ⟨-, hinstant⟩ | ⟨-, o, ho, hinstant⟩
    · rw [hinstant]
      exact Or.inl ((Date.days_lt_days hc.date hvalid.1).1 (by omega))
    · have hfirst : firstDay + 31 ≤ yearStart 0 := by decide
      have hmono := yearStart_mono (show 0 ≤ c.date.year from hy)
      have hstart := (Date.days_bounds hc.date).1
      have hdaytime := Moment.daytime_bounds (Stamp.toMoment_isValid hc false)
      have hsmall := hm.small o ho
      have hapart := hm.close o ho o' ho'
      simp only [Moment.daySeconds] at hdaytime hinstant
      have hnear : Moment.InCalendar (c.date.days * 86400 + (c.toMoment false).daytime - o) := by
        simp only [Moment.InCalendar, Moment.daySeconds]
        omega
      rw [hinstant, Moment.ofSeconds_lt_iff hnear hvalid, ← hvalid.seconds_eq hu]
      by_contra hge
      -- only the end of the day and a whole day between the offsets leave no room
      rcases hclose with hclose | hplain
      · exact hclose o ho o' ho' (by omega)
      · have hcarries := Stamp.daytime_eq hc (by simp only [Moment.daySeconds]; omega)
        omega

end RuleSource

/-! ### Rules as cursors -/

/-- Whether a rule has a count or positions, or passes to a date without dropping an
instant, because no two offsets lie a whole day apart or nothing in it carries. -/
def Rule.PassesSafely (rule : Rule) (start : Moment) (offsets : List Int) : Prop :=
  (∃ n, rule.finish = .count n) ∨ rule.bySetPos ≠ [] ∨
    (∀ o ∈ offsets, ∀ o' ∈ offsets, o' - o ≠ 86400) ∨
    (∀ t ∈ start.time, t.hour ≤ 23 ∧ t.second ≤ 59) ∧ ∀ n ∈ rule.bySecond, n ≤ 59

namespace RuleSource

variable {rule : Rule} {start : Moment} {zone : Zone} {limits : Limits} {offsets : List Int}

/-- Every instant of a rule comes from a candidate. -/
theorem exists_of_mem_emitted {s : RuleSource} {l : List Stamp} {m : Moment}
    (h : m ∈ s.emitted l) : ∃ c ∈ l, s.instant c = m := by
  induction l generalizing s with
  | nil => exact absurd h List.not_mem_nil
  | cons c l ih =>
    unfold emitted at h
    split_ifs at h with hpast hnew hspent
    · exact absurd h List.not_mem_nil
    · exact absurd h List.not_mem_nil
    · rcases List.mem_cons.1 h with rfl | h
      · exact ⟨c, List.mem_cons_self, rfl⟩
      · obtain ⟨c', hc', hinstant⟩ := ih h
        exact ⟨c', List.mem_cons_of_mem c hc', hinstant⟩
    · obtain ⟨c', hc', hinstant⟩ := ih h
      exact ⟨c', List.mem_cons_of_mem c hc', hinstant⟩

/-- The instants of a rule are regular. -/
theorem regular_of_mem_moments (hr : rule.InRange) (hstart : start.IsValid)
    (hlimits : limits.maxYear - start.date.year + 2 ≤ limits.maxYearsBetweenInstances)
    {m : Moment} (hm : m ∈ Source.moments (of rule start zone limits)) : m.Regular := by
  rw [moments_of rule zone hstart.1 hlimits] at hm
  obtain ⟨c, hc, rfl⟩ := exists_of_mem_emitted hm
  have hvalid := (Rule.valid_of_mem_handedOut hr hstart hc).1
  exact Zone.regular_localToUtc _ (Stamp.toMoment_isValid hvalid _)

/-- **A rule that passes safely is a cursor over its instants**, which ascend, for all
dates in the calendar and the instants next to it. -/
theorem follows_moments (hr : rule.InRange) (hstart : start.Sought) (hz : zone.HasOffsets offsets)
    (hm : Zone.Moderate offsets)
    (hlimits : limits.maxYear - start.date.year + 2 ≤ limits.maxYearsBetweenInstances)
    (hsafe : rule.PassesSafely start offsets) :
    (Source.moments (of rule start zone limits)).Pairwise (· < ·) ∧
      (Cursor.idle (of rule start zone limits)).Follows Moment.Regular
        (Source.moments (of rule start zone limits)) := by
  have hlists := Rule.lists_handedOut rule hstart.valid.1 hlimits
  have hasc := Rule.pairwise_handedOut rule start limits
  rw [moments_of rule zone hstart.valid.1 hlimits]
  refine ⟨(pairwise_emitted _ _).1, follows_emitted hlists hasc fun hprunes d hd => ?_⟩
  have hkeeps := (prunes_of_iff rule start zone limits).1 hprunes
  have hbefore : ∀ x ∈ rule.handedOut start limits, x < (of rule start zone limits).dayBefore d →
      (of rule start zone limits).instant x < d := by
    intro x hx hlt
    obtain ⟨hvalid, hyear, -⟩ := Rule.valid_of_mem_handedOut hr hstart.valid hx
    have hfirst := hstart.year.1
    refine instant_lt_of_lt_dayBefore hz hm hvalid (by omega) hd ?_ hlt
    rcases hsafe with hcount | hpositions | hclose | ⟨htime, hsec⟩
    · exact absurd (Or.inl hcount) hkeeps
    · exact absurd (Or.inr hpositions) hkeeps
    · exact Or.inl hclose
    · exact Or.inr (Rule.plain_of_mem_handedOut hr htime hsec hx)
  exact ⟨fun x hx hlt => Or.inl (hbefore x hx hlt), fun _ ⟨x, hx, hlt, hge⟩ =>
    absurd (hbefore x hx hlt) hge⟩

end RuleSource

end Recurrence
