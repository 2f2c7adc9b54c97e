/-
# The candidates of a rule

The walk through the cascade of a rule stands for the list of the stamps that
the rule selects from its threshold on, up to the last year. A rule without
positions hands them out one by one in ascending order and then nothing more.

Key theorems: `Rule.takes_levels_iff`, `Rule.cascade_lists`, `Rule.mem_pending_iff`,
`Rule.candidates_selected`.
-/
import Recurrence.Proofs.Expansion.Levels
import Recurrence.Proofs.Expansion.Positions

namespace Recurrence

open Calendar

theorem Date.firstDay_add_le {d : Date} (h : d.inCalendar = true) (hy : 0 ≤ d.year) :
    firstDay + 6 ≤ d.days := by
  have := yearStart_add_le (show firstYear < d.year by rw [firstYear]; omega)
  have := (days_bounds h).1
  unfold firstDay
  omega

namespace Rule

variable {rule : Rule} {start b : Stamp}

/-! ### Starts and thresholds -/

theorem StartsAt.occurs {start : Moment} (h : rule.StartsAt start) :
    (Stamp.ofMoment start).Occurs := by
  refine ⟨h.date, ?_, ?_, ?_⟩ <;>
  · unfold Stamp.ofMoment
    cases ht : start.time with
    | none => exact Nat.zero_le _
    | some t =>
      have := h.time t ht
      simp only [Option.getD_some]
      omega

/-- The threshold lies at most in the year before the start. -/
theorem threshold_year (rule : Rule) (hd : start.date.inCalendar = true) :
    start.year - 1 ≤ (rule.threshold start).year := by
  unfold threshold
  split
  · omega
  · cases rule.frequency with
    | weekly =>
      have hmid := midweek_spec rule.firstWeekday start.date.days
      have hlow : yearStart start.year ≤ start.date.days := (Date.days_bounds hd).1
      have hprev := yearStart_add_le (show start.year - 1 < start.year by omega)
      show start.year - 1 ≤ (start.date.startOfWeek rule.firstWeekday).year
      rw [Date.startOfWeek_eq hd]
      generalize hn : max firstDay (midweek rule.firstWeekday start.date.days - 3) = n
      show start.year - 1 ≤ yearOfDay n
      by_contra hlt
      have := yearStart_mono (show yearOfDay n + 1 ≤ start.year - 1 by omega)
      have := (yearOfDay_spec n).2
      omega
    | yearly | monthly | daily | hourly | minutely | secondly =>
      simp only [Stamp.periodStart, Stamp.startOfYear, Stamp.truncate]
      omega

/-- The threshold lies in the period of the start. -/
theorem threshold_spec (rule : Rule) (hs : start.Occurs) (hy : 1 ≤ start.year) :
    (rule.threshold start).Occurs ∧
      (rule.threshold start).periodIndex rule.frequency rule.firstWeekday =
        start.periodIndex rule.frequency rule.firstWeekday := by
  unfold threshold
  split
  · exact ⟨hs, rfl⟩
  · exact Stamp.periodStart_spec hs (Date.firstDay_add_le hs.date (show 0 ≤ start.year by omega))
      rule.frequency rule.firstWeekday

/-! ### What the levels take together -/

theorem dayLists_iff (hb : b.Occurs) (hy : 0 ≤ b.year) (hy' : b.year ≤ 9999) :
    ((rule.byMonth ≠ [] → b.month ∈ rule.byMonth) ∧
      ∀ p ∈ rule.dayLists, p.2.accepts b = true) ↔ rule.Accepts b := by
  have hprev : hasYear (b.date.year - 1) = true :=
    hasYear_of_bounds (by simp only [Stamp.date]; omega) (by simp only [Stamp.date]; omega)
  have hnext : hasYear (b.date.year + 1) = true :=
    hasYear_of_bounds (by simp only [Stamp.date]; omega) (by simp only [Stamp.date]; omega)
  have hweekdays : (ByList.weekdays rule.byDay rule.countsInYear).accepts b = true ↔
      ∃ entry ∈ rule.byDay,
        entry.Names (rule.countingSpan b).1 (rule.countingSpan b).2 b.date.days := by
    simp only [ByList.accepts, List.any_eq_true]
    exact exists_congr fun entry => and_congr_right fun _ =>
      entry.accepts_iff hb.date rule.countsInYear rfl
  have hmonthDays := ByList.accepts_monthDays_iff hb.date rule.byMonthDay
  have hyearDays := ByList.accepts_yearDays_iff hb.date rule.byYearDay
  have hweeks : (ByList.weeks rule.byWeekNo rule.firstWeekday).accepts b = true ↔ _ :=
    ByList.acceptsWeek_iff hb.date hprev hnext rule.byWeekNo rule.firstWeekday
  have hlists : (∀ p ∈ rule.dayLists, p.2.accepts b = true) ↔
      (rule.byMonthDay ≠ [] → (ByList.monthDays rule.byMonthDay).accepts b = true) ∧
      (rule.byYearDay ≠ [] → (ByList.yearDays rule.byYearDay).accepts b = true) ∧
      (rule.byWeekNo ≠ [] → (ByList.weeks rule.byWeekNo rule.firstWeekday).accepts b = true) ∧
      (rule.byDay ≠ [] →
        (ByList.weekdays rule.byDay rule.countsInYear).accepts b = true) := by
    simp only [dayLists, List.forall_mem_append, List.mem_ite_nil_left, List.mem_singleton,
      and_imp, forall_eq_apply_imp_iff, and_assoc, ne_eq]
  rw [hlists, hmonthDays, hyearDays, hweeks, hweekdays]
  exact ⟨fun h => ⟨h.1, h.2.1, h.2.2.1, h.2.2.2.1, h.2.2.2.2⟩,
    fun h => ⟨h.months, h.monthDays, h.yearDays, h.weeks, h.weekdays⟩⟩

/-- The interval concerns the field that the frequency steps through. -/
theorem dvd_period_iff (rule : Rule) (start b : Stamp) :
    (rule.interval : Int) ∣ b.periodIndex rule.frequency rule.firstWeekday -
        start.periodIndex rule.frequency rule.firstWeekday ↔
      (rule.frequency = .yearly → (rule.interval : Int) ∣ b.year - start.year) ∧
      (rule.frequency = .monthly → (rule.interval : Int) ∣
        b.periodIndex .monthly rule.firstWeekday - start.periodIndex .monthly rule.firstWeekday) ∧
      (rule.frequency = .weekly ∨ rule.frequency = .daily → (rule.interval : Int) ∣
        b.periodIndex rule.frequency rule.firstWeekday -
          start.periodIndex rule.frequency rule.firstWeekday) ∧
      ∀ f ∈ rule.timeFields, rule.frequency = f.frequency → (rule.interval : Int) ∣
        b.periodIndex f.frequency rule.firstWeekday -
          start.periodIndex f.frequency rule.firstWeekday := by
  simp only [timeFields, List.forall_mem_cons, List.not_mem_nil, false_implies, implies_true,
    and_true]
  cases rule.frequency <;> simp [Stamp.periodIndex]

section Takes

variable {threshold : Stamp} {dateOnly : Bool}

/-- The date of a stamp that every level takes exists. -/
theorem date_of_takes (h : ∀ level ∈ rule.levels start threshold dateOnly, level.Takes b) :
    b.date.inCalendar = true := by
  have hday := h ⟨rule.daySelection start, rule.dayFilters start⟩ (by simp [levels])
  have hfield := field_daySelection rule start
  have hvalue := hday.1
  simp only [Level.field, hfield] at hvalue
  have hdate : 1 ≤ b.day ∧ b.day ≤ monthLength b.year b.month := by
    generalize rule.daySelection start = selection at *
    cases selection with
    | steps steps =>
      obtain ⟨field, interval, anchor⟩ := steps
      unfold Selection.field at hfield
      subst hfield
      exact ((Steps.mem_values _ b _).1 hvalue).1
    | list list => exact ((ByList.mem_values_days hfield b _).1 hvalue).1
  exact inCalendar_of_mem_month hdate.1 hdate.2

/-- The fields of the time are bounded as the start's, the lists' and the steps'
values are. -/
theorem time_of_takes (h : ∀ level ∈ rule.levels start threshold dateOnly, level.Takes b)
    {f : TimeField} (hf : f ∈ rule.timeFields) {most : Nat} (hstart : start.get f.field ≤ most)
    (hvalues : ∀ n ∈ f.values, n ≤ most) (hhighest : Steps.highest f.field b ≤ most) :
    b.get f.field ≤ most := by
  have htakes := h (if dateOnly then midnightLevel f else rule.timeLevel start f)
    (List.mem_append_right _ (List.mem_map_of_mem hf))
  split at htakes
  · rw [takes_midnightLevel hf] at htakes
    rw [htakes]
    exact Nat.zero_le _
  · obtain ⟨hfield, hlist, -, -⟩ := reads_of_mem hf
    have hvalue := htakes.1
    rw [(field_timeLevel hf start).1, timeLevel] at hvalue
    have hsteps : ∀ n, b.get f.field ∈ (Selection.steps ⟨f.field, n, start⟩).values b →
        b.get f.field ≤ most := fun n hn =>
      ((Steps.mem_values _ b _).1 hn).1.2.trans hhighest
    have hlisted : ∀ ns, b.get f.field ∈ (Selection.list (f.list ns)).values b →
        b.get f.field ∈ ns := by
      intro ns hn
      rwa [Selection.values, hlist, ByList.mem_ascending] at hn
    split_ifs at hvalue
    · exact hsteps _ hvalue
    · exact hvalues _ (hlisted _ hvalue)
    · exact hsteps _ hvalue
    · exact hvalues _ (hlisted _ hvalue)
    · exact hsteps _ hvalue
    · rw [List.mem_singleton.1 (hlisted _ hvalue)]
      exact hstart

/-- A stamp that every level takes exists. -/
theorem occurs_of_takes (hr : rule.InRange) (hsec : ∀ n ∈ rule.bySecond, n ≤ 59)
    (hs : start.Occurs) (h : ∀ level ∈ rule.levels start threshold dateOnly, level.Takes b) :
    b.Occurs := by
  have htime := @time_of_takes rule start b threshold dateOnly h
  simp only [timeFields, List.mem_cons, List.not_mem_nil, or_false, forall_eq_or_imp,
    forall_eq] at htime
  exact ⟨date_of_takes h, htime.1 hs.hour hr.byHour (Nat.le_refl _),
    htime.2.1 hs.minute hr.byMinute (Nat.le_refl _), htime.2.2 hs.second hsec (Nat.le_refl _)⟩

end Takes

/-! ### What the walk stands for -/

/-- The years that are walked through are those up to the last, in every so many
of them if the rule repeats yearly. -/
theorem mem_years_iff (hr : rule.InRange) (hs : start.Occurs) (hy : 1 ≤ start.year) (last : Int)
    (hle : rule.threshold start ≤ b) :
    b.year ∈ (YearSteps.of (rule.threshold start).year
        (Frequency.yearly.strideOf rule.frequency rule.interval) last).toList ↔
      b.year ≤ last ∧ (rule.frequency = .yearly → (rule.interval : Int) ∣ b.year - start.year) := by
  have hinterval := hr.interval.1
  obtain ⟨-, hindex⟩ := threshold_spec rule hs hy
  rw [YearSteps.mem_of, and_iff_right (Stamp.year_le_of_le hle)]
  refine and_congr_right fun _ => ?_
  by_cases hyearly : rule.frequency = .yearly
  · rw [hyearly] at hindex
    unfold Stamp.periodIndex at hindex
    simp only [hyearly, Frequency.strideOf, if_true, Nat.max_eq_left hinterval, hindex,
      forall_const]
  · simp only [hyearly, Frequency.strideOf, false_implies, iff_true, if_false, Nat.max_self]
    exact Int.one_dvd _

/-- The levels of the time take midnight alone, or what the rule says of times. -/
theorem takes_timeLevels_iff (hr : rule.InRange) (hs : start.Occurs) (hb : b.Occurs)
    {dateOnly : Bool}
    (hdateOnly : dateOnly = true → Frequency.daily.rank ≤ rule.frequency.rank) :
    (∀ f ∈ rule.timeFields,
        (if dateOnly = true then midnightLevel f else rule.timeLevel start f).Takes b) ↔
      (if dateOnly = true then b.hour = 0 ∧ b.minute = 0 ∧ b.second = 0
        else ∀ f ∈ rule.timeFields, rule.FitsTime start b f) ∧
      ∀ f ∈ rule.timeFields, rule.frequency = f.frequency → (rule.interval : Int) ∣
        b.periodIndex f.frequency rule.firstWeekday -
          start.periodIndex f.frequency rule.firstWeekday := by
  cases dateOnly with
  | true =>
    have hcoarse : ∀ f ∈ rule.timeFields, rule.frequency ≠ f.frequency := by
      intro f hf heq
      have hrank := hdateOnly rfl
      rw [heq] at hrank
      simp only [timeFields, List.mem_cons, List.not_mem_nil, or_false] at hf
      rcases hf with rfl | rfl | rfl <;> simp [Frequency.rank] at hrank
    have hmidnight : (∀ f ∈ rule.timeFields, (midnightLevel f).Takes b) ↔
        ∀ f ∈ rule.timeFields, b.get f.field = 0 :=
      forall₂_congr fun f hf => takes_midnightLevel hf
    simp only [if_true]
    rw [and_iff_left fun f hf heq => absurd heq (hcoarse f hf), hmidnight]
    simp [timeFields, Stamp.get]
  | false =>
    simp only [Bool.false_eq_true, if_false]
    rw [← forall₂_and]
    exact forall₂_congr fun f hf => takes_timeLevel hr.interval.1 hb hs hf rule.firstWeekday

/-- **The levels and the years together take what the rule selects.** -/
theorem takes_levels_iff (hr : rule.InRange) (hs : start.Occurs) (hy : 1 ≤ start.year)
    {dateOnly : Bool} (hdateOnly : dateOnly = true → Frequency.daily.rank ≤ rule.frequency.rank)
    {last : Int} (hlast : last ≤ 9999) (hb : b.Occurs) (hle : rule.threshold start ≤ b) :
    (b.year ∈ (YearSteps.of (rule.threshold start).year
        (Frequency.yearly.strideOf rule.frequency rule.interval) last).toList ∧
      ∀ level ∈ rule.levels start (rule.threshold start) dateOnly, level.Takes b) ↔
      rule.Selects start dateOnly b ∧ b.year ≤ last := by
  obtain ⟨ht, htindex⟩ := threshold_spec rule hs hy
  have hinterval := hr.interval.1
  have hbyear : 0 ≤ b.year := by
    have := threshold_year rule hs.date
    have := Stamp.year_le_of_le hle
    omega
  have hindex := Stamp.periodIndex_mono ht hb hle rule.frequency rule.firstWeekday
  rw [htindex] at hindex
  have hmonths : (rule.monthLevel start (rule.threshold start)).Takes b ↔ _ :=
    takes_monthLevel hinterval hb ht rule.firstWeekday fun h => by rwa [h] at htindex
  have hdays := takes_dayLevel hinterval hb hs (Date.firstDay_add_le hb.date hbyear)
    (Date.firstDay_add_le hs.date (show 0 ≤ start.year by omega)) hindex
  have hdvd := (Steps.exists_steps_iff (Int.natCast_pos.2 hinterval) hindex).trans
    (dvd_period_iff rule start b)
  simp only [levels, List.cons_append, List.nil_append, List.forall_mem_cons,
    List.forall_mem_map, mem_years_iff hr hs hy last hle, hmonths, hdays,
    takes_timeLevels_iff hr hs hb hdateOnly]
  constructor
  · rintro ⟨⟨hyl, hyd⟩, ⟨hml, hmo, hmd⟩, ⟨hdl, hdo, hdw, hdd⟩, ht, htd⟩
    have haccepts := (dayLists_iff hb hbyear (by omega)).1 ⟨hml, hdl⟩
    exact ⟨⟨hb, hdvd.2 ⟨hyd, hmd, hdd, htd⟩, haccepts, ⟨hmo, hdo, hdw⟩, ht⟩, hyl⟩
  · rintro ⟨⟨-, hperiod, haccepts, hrepeats, ht⟩, hyl⟩
    obtain ⟨hyd, hmd, hdd, htd⟩ := hdvd.1 hperiod
    obtain ⟨hml, hdl⟩ := (dayLists_iff hb hbyear (by omega)).2 haccepts
    exact ⟨⟨hyl, hyd⟩, ⟨hml, hrepeats.month, hmd⟩, ⟨hdl, hrepeats.day, hrepeats.weekday, hdd⟩,
      ht, htd⟩

variable {start : Moment} {limits : Limits}

/-- **The walk of a rule is never given up** while the years until the last one
do not exceed the limit of years without an instance. -/
theorem cascade_lists (rule : Rule) (hd : start.date.inCalendar = true)
    (hlimits : limits.maxYear - start.date.year + 2 ≤ limits.maxYearsBetweenInstances) :
    (rule.candidates start limits).cascade.Lists (rule.candidates start limits).cascade.pending := by
  refine ⟨spans_levels _ _ _ _, rfl, ?_, fun h => absurd h (by simp [candidates])⟩
  have hyear : start.date.year - 1 ≤ (rule.threshold (.ofMoment start)).year :=
    threshold_year rule hd
  have hleft := YearSteps.left_of_le (rule.threshold (.ofMoment start)).year
    (Frequency.yearly.strideOf rule.frequency rule.interval) limits.maxYear
  simp only [candidates]
  omega

/-- The candidates of a rule ascend. -/
theorem pairwise_pending (rule : Rule) (start : Moment) (limits : Limits) :
    (rule.candidates start limits).cascade.pending.Pairwise (· < ·) := by
  refine Cascade.pairwise_ofYears _ (spans_levels _ _ _ _) (YearSteps.pairwise_toList ?_)
  simp only [candidates, YearSteps.of]
  omega

theorem mem_pending (rule : Rule) (start : Moment) (limits : Limits) (b : Stamp) :
    b ∈ (rule.candidates start limits).cascade.pending ↔
      b.year ∈ (YearSteps.of (rule.threshold (.ofMoment start)).year
        (Frequency.yearly.strideOf rule.frequency rule.interval) limits.maxYear).toList ∧
      rule.threshold (.ofMoment start) ≤ b ∧
      ∀ level ∈ rule.levels (.ofMoment start) (rule.threshold (.ofMoment start)) (!start.hasTime),
        level.Takes b :=
  Cascade.mem_ofYears _ (spans_levels _ _ _ _) _ b

/-- **The walk of a rule stands for what the rule selects** from its threshold
on. -/
theorem mem_pending_iff (hr : rule.InRange) (hsec : ∀ n ∈ rule.bySecond, n ≤ 59)
    (hstart : rule.StartsAt start) (hlast : limits.maxYear ≤ 9999) (b : Stamp) :
    b ∈ (rule.candidates start limits).cascade.pending ↔
      rule.Selects (.ofMoment start) (!start.hasTime) b ∧
        rule.threshold (.ofMoment start) ≤ b ∧ b.year ≤ limits.maxYear := by
  have hdateOnly : (!start.hasTime) = true → Frequency.daily.rank ≤ rule.frequency.rank :=
    fun h => hstart.dateOnly (by simpa [Moment.hasTime] using h)
  rw [mem_pending]
  constructor
  · rintro ⟨hyear, hle, htakes⟩
    have hb := occurs_of_takes hr hsec hstart.occurs htakes
    have hboth := (takes_levels_iff hr hstart.occurs hstart.year.1 hdateOnly hlast hb hle).1
      ⟨hyear, htakes⟩
    exact ⟨hboth.1, hle, hboth.2⟩
  · rintro ⟨hselects, hle, hb⟩
    have hboth := (takes_levels_iff hr hstart.occurs hstart.year.1 hdateOnly hlast
      hselects.occurs hle).2 ⟨hselects, hb⟩
    exact ⟨hboth.1, hle, hboth.2⟩

/-- The candidates that a rule hands out, after any selection by position. -/
def handedOut (rule : Rule) (start : Moment) (limits : Limits) : List Stamp :=
  let candidates := (rule.candidates start limits).cascade.pending
  if rule.bySetPos = [] then candidates
  else selectByPeriod rule.bySetPos rule.frequency rule.firstWeekday candidates

theorem lists_handedOut (rule : Rule) (hd : start.date.inCalendar = true)
    (hlimits : limits.maxYear - start.date.year + 2 ≤ limits.maxYearsBetweenInstances) :
    (rule.candidates start limits).Lists (rule.handedOut start limits) := by
  have hlists := cascade_lists rule hd hlimits
  unfold handedOut
  split
  · rename_i hpos
    simp only [Candidates.Lists, candidates, hpos, if_true]
    simp only [candidates, hpos, if_true] at hlists
    exact hlists
  · rename_i hpos
    simp only [Candidates.Lists, candidates, hpos, if_false]
    exact ⟨_, hlists, rfl⟩

theorem handedOut_sublist (rule : Rule) (start : Moment) (limits : Limits) :
    List.Sublist (rule.handedOut start limits) (rule.candidates start limits).cascade.pending := by
  unfold handedOut
  split
  · exact List.Sublist.refl _
  · exact selectByPeriod_sublist _ _ _ _

theorem pairwise_handedOut (rule : Rule) (start : Moment) (limits : Limits) :
    (rule.handedOut start limits).Pairwise (· < ·) :=
  (pairwise_pending rule start limits).sublist (handedOut_sublist rule start limits)

/-! ### Rules without positions -/

/-- **The candidates of a rule are what it selects.** Call by call a rule
without positions hands out, in ascending order and then nothing more, the
stamps that it selects from the start on, up to the last year. -/
theorem candidates_selected (hr : rule.InRange) (hsec : ∀ n ∈ rule.bySecond, n ≤ 59)
    (hpos : rule.bySetPos = []) (hstart : rule.StartsAt start)
    (hlimits : limits.AmpleFrom start.date.year) :
    ∃ out : List Stamp, out.Pairwise (· < ·) ∧
      (∀ n, (rule.candidates start limits).nth n = out[n]?) ∧
      ∀ b, b ∈ out ↔ rule.Selects (.ofMoment start) (!start.hasTime) b ∧
        Stamp.ofMoment start ≤ b ∧ b.year ≤ limits.maxYear := by
  refine ⟨_, pairwise_handedOut rule start limits,
    (lists_handedOut rule hstart.date hlimits.patience).nth, fun b => ?_⟩
  rw [handedOut, if_pos hpos, mem_pending_iff hr hsec hstart hlimits.last, threshold, if_pos hpos]

/-- The last Sunday of April in every other year, at nine and at half past. -/
def lastSundays : Rule :=
  { every .yearly with
    interval := 2, byMonth := [4], byDay := [⟨-1, .sunday⟩], byMinute := [0, 30] }

theorem candidates_selected_lastSundays :
    ∃ out : List Stamp, out.Pairwise (· < ·) ∧
      (∀ n, (lastSundays.candidates (.atTime 2005 4 24 9 15 0) ⟨6, 2009⟩).nth n = out[n]?) ∧
      ∀ b, b ∈ out ↔ lastSundays.Selects ⟨2005, 4, 24, 9, 15, 0⟩ false b ∧
        ⟨2005, 4, 24, 9, 15, 0⟩ ≤ b ∧ b.year ≤ 2009 :=
  candidates_selected
    (by constructor <;> simp [lastSundays, every])
    (by simp [lastSundays, every]) rfl
    ⟨by decide, by decide, by decide, by decide⟩ ⟨by decide, by decide⟩

/-- Every day at nine. -/
def nineDaily : Rule :=
  { every .daily with byHour := [9] }

/-- **Dates without a time are not moved to the hours of a rule.** Every day at
nine, from a date on, begins at the midnight of that date, which the list of
hours does not accept. -/
theorem nineDaily_dateOnly :
    (nineDaily.InRange ∧ nineDaily.bySetPos = [] ∧ nineDaily.StartsAt (.onDate 2006 1 1) ∧
      (⟨10, 2006⟩ : Limits).AmpleFrom 2006) ∧
      (nineDaily.candidates (.onDate 2006 1 1) ⟨10, 2006⟩).nth 0 = some ⟨2006, 1, 1, 0, 0, 0⟩ ∧
      nineDaily.byHour ≠ [] ∧ 0 ∉ nineDaily.byHour :=
  ⟨⟨by constructor <;> simp [nineDaily, every], rfl,
    ⟨by decide, by decide, by decide, by decide⟩, ⟨by decide, by decide⟩⟩,
    by decide +kernel, by decide, by decide⟩

end Rule

end Recurrence
