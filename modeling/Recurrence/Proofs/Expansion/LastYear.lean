/-
# The last year

The last year cuts an expansion off: up to a year, the walk of a rule visits the
same candidates whether or not it may go on behind it. With positions the cut
also goes through the period that holds the end of the year. Of all periods only
a week has days in two years, and from such a week the positions pick among the
days that the cut has left, not among all of them. So a rule that counts the days
of its weeks from the last one can hand out one that a later last year excludes.

Key definitions: `Rule.yearEndWeek`, `Rule.CutsAt`.
Key theorems: `Rule.pending_filter`, `selectByPeriod_filter_iff`,
`Rule.handedOut_filter_iff`, `Rule.cutsAt_iff`, `Rule.not_cutsAt_lastOfWeekends`.
-/
import Recurrence.Proofs.Expansion.Periods

namespace Recurrence

open Calendar

/-! ### Periods in order -/

namespace Stamp

theorem ofDate_mono {d e : Date} (h : ¬ e < d) : ofDate d ≤ ofDate e := by
  rw [Date.lt_iff] at h
  simp only [le_iff, ofDate, le_refl, lt_self_iff_false, false_or, and_true]
  omega

/-- Later stamps lie in periods that begin later. -/
theorem periodStart_mono {a b : Stamp} (ha : a.date.inCalendar = true)
    (hb : b.date.inCalendar = true) (h : a ≤ b) (frequency : Frequency) (weekStart : Weekday) :
    a.periodStart frequency weekStart ≤ b.periodStart frequency weekStart := by
  cases frequency with
  | yearly =>
    have := year_le_of_le h
    simp only [le_iff, periodStart, startOfYear, le_refl, lt_self_iff_false, false_or, and_true]
    omega
  | monthly => exact truncate_mono h .month
  | weekly =>
    have hdays : a.date.days ≤ b.date.days := by
      by_contra hlt
      have hdate := (Date.days_lt_days hb ha).1 (not_le.1 hlt)
      rw [Date.lt_iff] at hdate
      rw [le_iff] at h
      simp only [date] at hdate
      omega
    refine ofDate_mono ?_
    rw [Date.startOfWeek_eq ha, Date.startOfWeek_eq hb]
    have hle : max firstDay (midweek weekStart a.date.days - 3) ≤
        max firstDay (midweek weekStart b.date.days - 3) := by
      simp only [midweek, weekIndex]
      omega
    rcases hle.lt_or_eq with hlt | heq
    · have := Date.ofDays_lt_ofDays hlt
      rw [Date.lt_iff] at this ⊢
      omega
    · rw [heq, Date.lt_iff]
      omega
  | daily => exact truncate_mono h .day
  | hourly => exact truncate_mono h .hour
  | minutely => exact truncate_mono h .minute
  | secondly => exact h

/-- Only a week has days in two years. -/
theorem year_eq_of_periodStart_eq {a b : Stamp} {frequency : Frequency} {weekStart : Weekday}
    (hweekly : frequency ≠ .weekly)
    (h : a.periodStart frequency weekStart = b.periodStart frequency weekStart) :
    a.year = b.year := by
  cases frequency with
  | weekly => exact absurd rfl hweekly
  | yearly | monthly | daily | hourly | minutely | secondly =>
    have hyear := congrArg Stamp.year h
    simpa only [periodStart, startOfYear, truncate] using hyear

end Stamp

/-! ### Positions in a part of a list -/

/-- **A part of a list is selected from as the whole is**, exactly if the
positions pick from the part of each period what they pick from all of it. -/
theorem selectByPeriod_filter_iff (positions : List Int) (frequency : Frequency)
    (weekStart : Weekday) {l : List Stamp} (hl : l.Pairwise (· < ·))
    (hd : ∀ b ∈ l, b.date.inCalendar = true) (part : Stamp → Bool) :
    selectByPeriod positions frequency weekStart (l.filter part) =
        (selectByPeriod positions frequency weekStart l).filter part ↔
      ∀ k, let period := l.filter fun b => b.periodStart frequency weekStart = k
        atPositions positions (period.filter part) =
          (atPositions positions period).filter part := by
  have hmono : l.Pairwise fun a b =>
      a.periodStart frequency weekStart ≤ b.periodStart frequency weekStart :=
    hl.imp_of_mem fun ha hb h => Stamp.periodStart_mono (hd _ ha) (hd _ hb) h.le _ _
  have hwhole := fun k => filter_selectByPeriod positions frequency weekStart
    (fun _ _ _ _ => rfl) hmono k
  have hpart := fun k => filter_selectByPeriod positions frequency weekStart
    (fun _ _ _ _ => rfl) (hmono.filter part) k
  constructor
  · intro h k
    simp only
    rw [List.filter_comm, ← hpart, h, ← hwhole, List.filter_comm]
  · intro h
    have hsub := selectByPeriod_sublist positions frequency weekStart
    refine AscendingList.eq_of_mem_iff ((hl.filter part).sublist (hsub _))
      ((hl.sublist (hsub l)).filter part) fun b => ?_
    -- each candidate is looked for in its own period
    have hperiod := h (b.periodStart frequency weekStart)
    simp only at hperiod
    rw [List.filter_comm, ← hpart, ← hwhole, List.filter_comm] at hperiod
    have hb : b ∈ _ ↔ b ∈ _ := iff_of_eq (congrArg (b ∈ ·) hperiod)
    simpa only [List.mem_filter, decide_true, and_true] using hb

theorem atPositions_filter_of_forall (positions : List Int) {l : List Stamp}
    {part : Stamp → Bool} (h : (∀ b ∈ l, part b = true) ∨ ∀ b ∈ l, ¬ part b = true) :
    atPositions positions (l.filter part) = (atPositions positions l).filter part := by
  have hsub := atPositions_sublist positions l
  rcases h with h | h
  · rw [List.filter_eq_self.2 h, List.filter_eq_self.2 fun b hb => h b (hsub.subset hb)]
  · rw [List.filter_eq_nil_iff.2 h, List.filter_eq_nil_iff.2 fun b hb => h b (hsub.subset hb)]
    rfl

/-- Places counted from the first are the same in the front part of a list. -/
theorem atPositions_filter_of_pos {positions : List Int} (hpos : ∀ p ∈ positions, 0 < p)
    {l : List Stamp} (hl : l.Pairwise (· < ·)) (last : Int) :
    atPositions positions (l.filter (·.year ≤ last)) =
      (atPositions positions l).filter (·.year ≤ last) := by
  have hfront : ∀ (l : List Stamp) (b : Stamp), b ∈ atPositions positions l ↔
      ∃ i : Nat, l[i]? = some b ∧ (i : Int) + 1 ∈ positions := by
    intro l b
    rw [mem_atPositions]
    refine exists_congr fun i => and_congr_right fun hi => ⟨?_, fun h => ⟨_, h, Or.inl rfl⟩⟩
    rintro ⟨p, hp, rfl | rfl⟩
    · exact hp
    · have := hpos _ hp
      have := (List.getElem?_eq_some_iff.1 hi).1
      omega
  have hprefix : l.filter (·.year ≤ last) <+: l := by
    rw [AscendingList.filter_eq_takeWhile hl]
    · exact List.takeWhile_prefix _
    · intro a b hab hb
      have := Stamp.year_le_of_le hab.le
      simp only [decide_eq_true_eq] at hb ⊢
      omega
  have hsub := atPositions_sublist positions
  refine AscendingList.eq_of_mem_iff ((hl.filter _).sublist (hsub _))
    ((hl.sublist (hsub l)).filter _) fun b => ?_
  rw [List.mem_filter, hfront, hfront, decide_eq_true_eq]
  obtain ⟨rest, hrest⟩ := hprefix
  have hplace : ∀ i : Nat, (l.filter (·.year ≤ last))[i]? = some b → l[i]? = some b := by
    intro i hi
    rw [← hrest, List.getElem?_append_left (List.getElem?_eq_some_iff.1 hi).1, hi]
  constructor
  · rintro ⟨i, hi, hp⟩
    have hb := List.mem_of_getElem? hi
    rw [List.mem_filter, decide_eq_true_eq] at hb
    exact ⟨⟨i, hplace i hi, hp⟩, hb.2⟩
  · rintro ⟨⟨i, hi, hp⟩, hyear⟩
    have hb : b ∈ l.filter (·.year ≤ last) :=
      List.mem_filter.2 ⟨List.mem_of_getElem? hi, by simpa using hyear⟩
    obtain ⟨j, hj⟩ := List.mem_iff_getElem?.1 hb
    have hij := (List.getElem?_inj (List.getElem?_eq_some_iff.1 hi).1 (hl.imp ne_of_lt)).1
      (hi.trans (hplace j hj).symm)
    exact ⟨i, by rw [hij, hj], hp⟩

/-! ### The cut -/

namespace Rule

variable {start : Moment} {limits limits' : Limits}

/-- **Up to a year the walk does not depend on the last year.** -/
theorem pending_filter (rule : Rule) (start : Moment) (h : limits.maxYear ≤ limits'.maxYear) :
    (rule.candidates start limits).cascade.pending =
      (rule.candidates start limits').cascade.pending.filter (·.year ≤ limits.maxYear) := by
  refine AscendingList.eq_of_mem_iff (pairwise_pending rule start limits)
    ((pairwise_pending rule start limits').filter _) fun b => ?_
  rw [List.mem_filter, mem_pending, mem_pending, YearSteps.mem_of, YearSteps.mem_of,
    decide_eq_true_eq]
  constructor
  · rintro ⟨⟨⟨hfirst, hlast⟩, hdvd⟩, hb⟩
    exact ⟨⟨⟨⟨hfirst, hlast.trans h⟩, hdvd⟩, hb⟩, hlast⟩
  · rintro ⟨⟨⟨⟨hfirst, -⟩, hdvd⟩, hb⟩, hlast⟩
    exact ⟨⟨⟨hfirst, hlast⟩, hdvd⟩, hb⟩

/-- The candidates of the walk in the week that holds the last day of a year. -/
def yearEndWeek (rule : Rule) (start : Moment) (limits : Limits) (year : Int) : List Stamp :=
  (rule.candidates start limits).cascade.pending.filter fun b =>
    b.periodStart .weekly rule.firstWeekday =
      (Stamp.ofDate ⟨year, 12, 31⟩).periodStart .weekly rule.firstWeekday

/-- A period with candidates on both sides of the end of a year is the week that
holds its last day. -/
theorem periodStart_of_straddles {frequency : Frequency} {weekStart : Weekday} {a b : Stamp}
    (ha : a.date.inCalendar = true) (hb : b.date.inCalendar = true) {year : Int}
    (hay : a.year ≤ year) (hby : year < b.year)
    (h : a.periodStart frequency weekStart = b.periodStart frequency weekStart) :
    frequency = .weekly ∧ a.periodStart .weekly weekStart =
      (Stamp.ofDate ⟨year, 12, 31⟩).periodStart .weekly weekStart := by
  have hweekly : frequency = .weekly := by
    by_contra hne
    have := Stamp.year_eq_of_periodStart_eq hne h
    omega
  subst hweekly
  obtain ⟨hya, hm, hm', hk, hk'⟩ := (Date.inCalendar_iff a.date).1 ha
  have hyb := ((Date.inCalendar_iff b.date).1 hb).1
  have hday := hk'.trans (daysInMonth_le (gregorianLeap a.date.year) (m := a.date.month))
  have hend : (⟨year, 12, 31⟩ : Date).inCalendar = true := by
    rw [hasYear_iff] at hya hyb
    simp only [Stamp.date] at hya hyb
    rw [Date.inCalendar_iff, hasYear_iff]
    exact ⟨by simp only; omega, by simp, by simp, by simp, by simp [daysInMonth]⟩
  refine ⟨rfl, le_antisymm ?_ ?_⟩
  · -- the time of day does not matter for the week
    have hle : Stamp.ofDate a.date ≤ Stamp.ofDate ⟨year, 12, 31⟩ := by
      simp only [Stamp.date] at hm' hday
      simp only [Stamp.le_iff, Stamp.ofDate, Stamp.date, le_refl, lt_self_iff_false, false_or,
        and_true]
      omega
    exact Stamp.periodStart_mono (show (Stamp.ofDate a.date).date.inCalendar = true from ha)
      (show (Stamp.ofDate ⟨year, 12, 31⟩).date.inCalendar = true from hend) hle .weekly weekStart
  · have hlt : Stamp.ofDate ⟨year, 12, 31⟩ < b := Or.inl hby
    rw [h]
    exact Stamp.periodStart_mono
      (show (Stamp.ofDate ⟨year, 12, 31⟩).date.inCalendar = true from hend) hb hlt.le .weekly
      weekStart

/-- **The last year cuts the list of candidates off**, unless the positions pick
something else from what it leaves of its last week. -/
theorem handedOut_filter_iff (rule : Rule) (start : Moment)
    (h : limits.maxYear ≤ limits'.maxYear) :
    rule.handedOut start limits =
        (rule.handedOut start limits').filter (·.year ≤ limits.maxYear) ↔
      rule.bySetPos = [] ∨ rule.frequency ≠ .weekly ∨
        let week := rule.yearEndWeek start limits' limits.maxYear
        atPositions rule.bySetPos (week.filter (·.year ≤ limits.maxYear)) =
          (atPositions rule.bySetPos week).filter (·.year ≤ limits.maxYear) := by
  by_cases hpos : rule.bySetPos = []
  · simp only [handedOut, hpos, if_true, pending_filter rule start h, true_or]
  have hasc := pairwise_pending rule start limits'
  have hdate : ∀ b ∈ (rule.candidates start limits').cascade.pending,
      b.date.inCalendar = true := fun b hb =>
    date_of_takes ((mem_pending rule start limits' b).1 hb).2.2
  simp only [handedOut, hpos, if_false, pending_filter rule start h, yearEndWeek, false_or]
  rw [selectByPeriod_filter_iff _ _ _ hasc hdate]
  constructor
  · intro hall
    refine or_iff_not_imp_left.2 fun hweekly => ?_
    rw [not_not] at hweekly
    simp only [hweekly] at hall
    exact hall _
  · intro hweek k
    by_cases hstraddles : ∃ a ∈ (rule.candidates start limits').cascade.pending,
        a.periodStart rule.frequency rule.firstWeekday = k ∧ a.year ≤ limits.maxYear ∧
        ∃ b ∈ (rule.candidates start limits').cascade.pending,
          b.periodStart rule.frequency rule.firstWeekday = k ∧ limits.maxYear < b.year
    · obtain ⟨a, ha, hak, hay, b, hb, hbk, hby⟩ := hstraddles
      obtain ⟨hweekly, hstart⟩ := periodStart_of_straddles (hdate a ha) (hdate b hb) hay hby
        (hak.trans hbk.symm)
      have hk : k = (Stamp.ofDate ⟨limits.maxYear, 12, 31⟩).periodStart .weekly
          rule.firstWeekday := by
        rw [← hak, hweekly, hstart]
      rw [hk, hweekly]
      exact hweek.resolve_left (not_not.2 hweekly)
    · refine atPositions_filter_of_forall _ ?_
      by_contra hboth
      simp only [not_or, not_forall, List.mem_filter, decide_eq_true_eq, not_not] at hboth
      obtain ⟨⟨b, ⟨hb, hbk⟩, hby⟩, a, ⟨ha, hak⟩, hay⟩ := hboth
      exact hstraddles ⟨a, ha, hak, hay, b, hb, hbk, not_le.1 hby⟩

/-- Whether a rule hands out, call by call, what it hands out with later limits,
without what they add behind its last year. -/
def CutsAt (rule : Rule) (start : Moment) (limits limits' : Limits) : Prop :=
  ∃ out out' : List Stamp,
    (∀ n, (rule.candidates start limits).nth n = out[n]?) ∧
    (∀ n, (rule.candidates start limits').nth n = out'[n]?) ∧
    out = out'.filter (·.year ≤ limits.maxYear)

theorem cutsAt_iff_handedOut (rule : Rule) (hd : start.date.inCalendar = true)
    (hlimits : limits.maxYear - start.date.year + 2 ≤ limits.maxYearsBetweenInstances)
    (hlimits' : limits'.maxYear - start.date.year + 2 ≤ limits'.maxYearsBetweenInstances) :
    rule.CutsAt start limits limits' ↔ rule.handedOut start limits =
      (rule.handedOut start limits').filter (·.year ≤ limits.maxYear) := by
  have hnth := (lists_handedOut rule hd hlimits).nth
  have hnth' := (lists_handedOut rule hd hlimits').nth
  constructor
  · rintro ⟨out, out', hout, hout', hequal⟩
    have hlist : out = rule.handedOut start limits :=
      List.ext_getElem? fun n => by rw [← hout, hnth]
    have hlist' : out' = rule.handedOut start limits' :=
      List.ext_getElem? fun n => by rw [← hout', hnth']
    rw [← hlist, ← hlist', hequal]
  · exact fun hequal => ⟨_, _, hnth, hnth', hequal⟩

/-- **When the last year only cuts off.** A rule hands out what it hands out with
a later last year, up to its own, exactly if it has no positions, or does not
repeat weekly, or picks from the days that are left of the last week what it
picks from the whole week. It does so whenever it counts its positions from the
first. -/
theorem cutsAt_iff (rule : Rule) (hd : start.date.inCalendar = true)
    (h : limits.maxYear ≤ limits'.maxYear)
    (hlimits : limits.maxYear - start.date.year + 2 ≤ limits.maxYearsBetweenInstances)
    (hlimits' : limits'.maxYear - start.date.year + 2 ≤ limits'.maxYearsBetweenInstances) :
    (rule.CutsAt start limits limits' ↔
      rule.bySetPos = [] ∨ rule.frequency ≠ .weekly ∨
        let week := rule.yearEndWeek start limits' limits.maxYear
        atPositions rule.bySetPos (week.filter (·.year ≤ limits.maxYear)) =
          (atPositions rule.bySetPos week).filter (·.year ≤ limits.maxYear)) ∧
    ((∀ p ∈ rule.bySetPos, 0 < p) → rule.CutsAt start limits limits') := by
  rw [cutsAt_iff_handedOut rule hd hlimits hlimits', handedOut_filter_iff rule start h]
  refine ⟨Iff.rfl, fun hpos => Or.inr (Or.inr ?_)⟩
  exact atPositions_filter_of_pos hpos ((pairwise_pending rule start limits').filter _) _

/-- The last day of every weekend. -/
def lastOfWeekends : Rule :=
  { every .weekly with byDay := [.every .saturday, .every .sunday], bySetPos := [-1] }

/-- Weekends lie within one year where it ends on a Sunday. -/
theorem cutsAt_iff_lastOfWeekends :
    lastOfWeekends.CutsAt (.onDate 2006 12 25) ⟨10, 2006⟩ ⟨10, 2007⟩ :=
  (cutsAt_iff lastOfWeekends (by decide) (by decide) (by decide) (by decide)).1.2
    (Or.inr (Or.inr (by decide +kernel)))

/-- **The last year can add to what a rule hands out.** Where the year ends on a
Saturday, it is taken for the last day of its weekend. -/
theorem not_cutsAt_lastOfWeekends :
    (lastOfWeekends.InRange ∧ lastOfWeekends.StartsAt (.onDate 2005 12 26) ∧
      (⟨10, 2005⟩ : Limits).AmpleFrom 2005 ∧ (⟨10, 2006⟩ : Limits).AmpleFrom 2005) ∧
      ¬ lastOfWeekends.CutsAt (.onDate 2005 12 26) ⟨10, 2005⟩ ⟨10, 2006⟩ := by
  refine ⟨⟨by constructor <;> simp [lastOfWeekends, every, OrdinalWeekday.every],
    ⟨by decide, by decide, by decide, by decide⟩, ⟨by decide, by decide⟩,
    ⟨by decide, by decide⟩⟩, fun h => ?_⟩
  rw [cutsAt_iff_handedOut _ (by decide) (by decide) (by decide),
    handedOut_filter_iff _ _ (by decide)] at h
  exact absurd h (by decide +kernel)

end Rule

end Recurrence
