/-
# What the levels of a rule take

Each level of a rule takes the stamps that meet its share of what the rule
means: the months what the rule says of months, the days what it says of days,
and each field of the time of day what it says of that field. The field that
the frequency steps through takes only whole multiples of the interval.

Key definitions: `Field.frequency`, `Stamp.NamesPeriod`.
Key theorems: `Steps.distance_eq`, `Steps.get_mem_values_iff`, `Rule.spans_levels`,
`Rule.takes_monthLevel`, `Rule.takes_dayLevel`, `Rule.takes_timeLevel`.
-/
import Recurrence.Proofs.Expansion.Listing
import Recurrence.Proofs.Expansion.Lists
import Recurrence.Proofs.Rule.Ranges

namespace Recurrence

open Calendar

/-! ### Steps and periods -/

/-- The frequency whose periods a field counts. -/
def Field.frequency : Field → Frequency
  | .month => .monthly
  | .day => .daily
  | .hour => .hourly
  | .minute => .minutely
  | .second => .secondly

theorem Frequency.rank_inj {p q : Frequency} (h : p.rank = q.rank) : p = q := by
  cases p <;> cases q <;> simp_all [rank]

namespace Stamp

/-- Whether the fields of a stamp above the given one name a period of the
calendar. -/
def NamesPeriod (s : Stamp) (f : Field) : Prop :=
  ((s.set f (Steps.lowest f)).truncate f).Occurs

theorem namesPeriod_set {s : Stamp} {f : Field} (n : Nat) :
    (s.set f n).NamesPeriod f ↔ s.NamesPeriod f := by
  rw [NamesPeriod, set_set, NamesPeriod]

theorem Occurs.namesPeriod {b : Stamp} (h : b.Occurs) (f : Field) : b.NamesPeriod f := by
  obtain ⟨hdate, hhour, hminute, hsecond⟩ := h
  obtain ⟨hy, -, -, hd, -⟩ := (Date.inCalendar_iff b.date).1 hdate
  cases f with
  | month =>
    exact ⟨Date.inCalendar_newYear hy, Nat.zero_le _, Nat.zero_le _, Nat.zero_le _⟩
  | day =>
    have hfirst : (⟨b.year, b.month, 1⟩ : Date).inCalendar = true :=
      inCalendar_of_mem_month (Nat.le_refl 1) (hd.trans (Date.day_le_monthLength hdate))
    exact ⟨hfirst, Nat.zero_le _, Nat.zero_le _, Nat.zero_le _⟩
  | hour => exact ⟨hdate, Nat.zero_le _, Nat.zero_le _, Nat.zero_le _⟩
  | minute => exact ⟨hdate, hhour, Nat.zero_le _, Nat.zero_le _⟩
  | second => exact ⟨hdate, hhour, hminute, Nat.zero_le _⟩

end Stamp

namespace Steps

theorem get_bounds {b : Stamp} (hb : b.Occurs) (f : Field) :
    lowest f ≤ b.get f ∧ b.get f ≤ highest f b := by
  have hday := Date.day_le hb.date
  have hlen := Date.day_le_monthLength hb.date
  obtain ⟨-, hm, hm', -⟩ := (Date.inCalendar_iff b.date).1 hb.date
  have := hb.hour; have := hb.minute; have := hb.second
  simp only [Stamp.date] at hday hlen hm hm'
  cases f <;> simp only [lowest, highest, Stamp.get] <;> omega

/-- The distance from the anchor, continued to the stamp's own value, is the number
of periods between the two. -/
theorem distance_eq (steps : Steps) {b : Stamp} (hb : b.NamesPeriod steps.field)
    (ha : steps.anchor.date.inCalendar = true) (weekStart : Weekday) :
    steps.distance b + (b.get steps.field - lowest steps.field) =
      b.periodIndex steps.field.frequency weekStart -
        steps.anchor.periodIndex steps.field.frequency weekStart := by
  obtain ⟨field, interval, anchor⟩ := steps
  have hdate := hb.date
  cases field with
  | month =>
    simp only [distance, Stamp.get, lowest, Field.frequency, Stamp.periodIndex]
    omega
  | day =>
    have hfirst : (⟨b.year, b.month, 1⟩ : Date).inCalendar = true := hdate
    have hdays : b.date.days = (⟨b.year, b.month, 1⟩ : Date).days + (b.day - 1) :=
      Date.days_eq b.year b.month b.day
    simp only [distance, Date.daysSince, Date.dayNumber_eq hfirst, Date.dayNumber_eq ha, Stamp.get,
      lowest, Field.frequency, Stamp.periodIndex]
    omega
  | hour | minute | second =>
    have hin : b.date.inCalendar = true := hdate
    simp only [distance, Date.daysSince, Date.dayNumber_eq hin, Date.dayNumber_eq ha, Stamp.get,
      lowest, Field.frequency, Stamp.periodIndex]
    omega

/-- **Steps take every so many periods** of their field's frequency from the
anchor's on. -/
theorem get_mem_values_iff (steps : Steps) {b : Stamp} (hb : b.Occurs)
    (ha : steps.anchor.Occurs) (weekStart : Weekday) :
    b.get steps.field ∈ steps.values b ↔
      (steps.stride : Int) ∣ b.periodIndex steps.field.frequency weekStart -
        steps.anchor.periodIndex steps.field.frequency weekStart := by
  rw [mem_values, and_iff_right (get_bounds hb _),
    distance_eq steps (hb.namesPeriod _) ha.date weekStart]

end Steps

namespace Rule

variable {rule : Rule} {start threshold b : Stamp}

/-! ### Where the days come from -/

theorem daySource_eq_startDay_iff (rule : Rule) : rule.daySource = .startDay ↔ rule.leavesDay := by
  cases hf : rule.frequency with
  | yearly | monthly =>
    simp only [daySource, leavesDay, hf]
    split_ifs <;> simp_all
  | weekly =>
    simp only [daySource, leavesDay, hf]
    split_ifs <;> simp
  | daily | hourly | minutely | secondly => simp [daySource, leavesDay, hf]

theorem mem_dayLists (rule : Rule) (source : DaySource) (list : ByList) :
    (source, list) ∈ rule.dayLists ↔
      (rule.byMonthDay ≠ [] ∧ source = .monthDays ∧ list = .monthDays rule.byMonthDay) ∨
      (rule.byYearDay ≠ [] ∧ source = .yearDays ∧ list = .yearDays rule.byYearDay) ∨
      (rule.byWeekNo ≠ [] ∧ source = .weeks ∧ list = .weeks rule.byWeekNo rule.firstWeekday) ∨
      (rule.byDay ≠ [] ∧ source = .weekdays ∧ list = .weekdays rule.byDay rule.countsInYear) := by
  simp only [dayLists, List.mem_append, List.mem_ite_nil_left, List.mem_singleton, Prod.mk.injEq,
    or_assoc, ne_eq]

theorem field_of_mem_dayLists {source : DaySource} {list : ByList}
    (h : (source, list) ∈ rule.dayLists) : list.field = .day := by
  rw [mem_dayLists] at h
  rcases h with ⟨-, -, rfl⟩ | ⟨-, -, rfl⟩ | ⟨-, -, rfl⟩ | ⟨-, -, rfl⟩ <;> rfl

/-- The list that is the source of the days selects them. -/
theorem daySelection_of_mem {source : DaySource} {list : ByList} (start : Stamp)
    (h : (source, list) ∈ rule.dayLists) (hs : source = rule.daySource) :
    rule.daySelection start = .list list := by
  subst hs
  rw [mem_dayLists] at h
  rcases h with ⟨-, hs, rfl⟩ | ⟨-, hs, rfl⟩ | ⟨-, hs, rfl⟩ | ⟨-, hs, rfl⟩ <;>
    rw [daySelection, hs]

theorem daySource_cases (rule : Rule) : (∃ list, (rule.daySource, list) ∈ rule.dayLists) ∨
    rule.daySource = .startDay ∨ ∃ n, rule.daySource = .everyDays n := by
  simp only [mem_dayLists]
  cases hf : rule.frequency with
  | yearly | monthly =>
    simp only [daySource, hf]
    split_ifs <;> simp_all
  | weekly =>
    simp only [daySource, hf]
    split_ifs <;> simp_all
  | daily | hourly | minutely | secondly => simp [daySource, hf]

theorem field_daySelection (rule : Rule) (start : Stamp) :
    (rule.daySelection start).field = .day := by
  unfold daySelection
  split <;> rfl

/-! ### The fields of the levels -/

/-- How the list of a field of the time of day is read. -/
structure TimeField.Reads (f : TimeField) : Prop where
  field : ∀ ns, (f.list ns).field = f.field
  values : ∀ ns s, (f.list ns).values s = ByList.ascending ns
  accepts : ∀ ns s, (f.list ns).accepts s = ns.contains (s.get f.field)
  frequency : f.field.frequency = f.frequency

theorem reads_of_mem {f : TimeField} (h : f ∈ rule.timeFields) : TimeField.Reads f := by
  simp only [timeFields, List.mem_cons, List.not_mem_nil, or_false] at h
  rcases h with rfl | rfl | rfl <;>
    exact ⟨fun _ => rfl, fun _ _ => rfl, fun _ _ => rfl, rfl⟩

theorem field_monthLevel (rule : Rule) (start threshold : Stamp) :
    (rule.monthLevel start threshold).field = .month ∧
      ∀ φ ∈ (rule.monthLevel start threshold).filters, φ.field = .month := by
  unfold monthLevel
  split
  · exact ⟨rfl, fun _ h => absurd h List.not_mem_nil⟩
  · split
    · exact ⟨rfl, fun _ h => absurd h List.not_mem_nil⟩
    · refine ⟨rfl, fun φ h => ?_⟩
      simp only [List.mem_ite_nil_left, List.mem_singleton] at h
      rw [h.2]
      rfl

theorem field_dayFilters (rule : Rule) (start : Stamp) :
    ∀ φ ∈ rule.dayFilters start, φ.field = .day := by
  intro φ h
  rw [dayFilters, List.mem_append] at h
  rcases h with h | h
  · rw [List.mem_ite_nil_right, List.mem_singleton] at h
    rw [h.2]
    rfl
  · obtain ⟨⟨source, list⟩, hp, rfl⟩ := List.mem_map.1 h
    exact field_of_mem_dayLists (List.mem_filter.1 hp).1

theorem field_timeLevel {f : TimeField} (h : f ∈ rule.timeFields) (start : Stamp) :
    (rule.timeLevel start f).field = f.field ∧
      ∀ φ ∈ (rule.timeLevel start f).filters, φ.field = f.field := by
  have hf := (reads_of_mem h).field
  unfold timeLevel
  split_ifs <;> refine ⟨by first | rfl | exact hf _, fun φ hφ => ?_⟩
  all_goals first
    | exact absurd hφ List.not_mem_nil
    | (rw [List.mem_singleton.1 hφ]; exact hf _)

theorem field_midnightLevel {f : TimeField} (h : f ∈ rule.timeFields) :
    (midnightLevel f).field = f.field ∧ ∀ φ ∈ (midnightLevel f).filters, φ.field = f.field :=
  ⟨(reads_of_mem h).field _, fun _ h => absurd h List.not_mem_nil⟩

/-- **The levels of a rule stand for the fields below the year**, in order. -/
theorem spans_levels (rule : Rule) (start threshold : Stamp) (dateOnly : Bool) :
    Level.Spans (some .month) (rule.levels start threshold dateOnly) := by
  have htime : ∀ f ∈ rule.timeFields,
      ((if dateOnly then midnightLevel f else rule.timeLevel start f).field = f.field ∧
        ∀ φ ∈ (if dateOnly then midnightLevel f else rule.timeLevel start f).filters,
          φ.field = f.field) := by
    intro f hf
    split
    · exact field_midnightLevel hf
    · exact field_timeLevel hf start
  refine ⟨field_monthLevel rule start threshold,
    ⟨field_daySelection rule start, field_dayFilters rule start⟩, ?_⟩
  simp only [timeFields, List.forall_mem_cons] at htime
  exact ⟨htime.1, htime.2.1, htime.2.2.1, trivial⟩

/-- An interval of one period lets every period pass. -/
theorem one_lt_imp_dvd_iff {interval : Nat} (h : 1 ≤ interval) (n : Int) :
    (interval > 1 → (interval : Int) ∣ n) ↔ (interval : Int) ∣ n := by
  refine ⟨fun hn => ?_, fun hn _ => hn⟩
  rcases Nat.lt_or_ge 1 interval with hlt | hge
  · exact hn hlt
  · rw [Nat.le_antisymm hge h]
    exact Int.one_dvd n

/-! ### What the months take -/

theorem countsInYear_iff (rule : Rule) :
    rule.countsInYear = true ↔ rule.frequency = .yearly ∧ rule.byMonth = [] := by
  simp [countsInYear]

/-- **The months take what the rule says of months.** They are listed, or
stepped through, or repeat the start's where nothing tells the days of a
year. -/
theorem takes_monthLevel (hr : 1 ≤ rule.interval) (hb : b.Occurs) (ht : threshold.Occurs)
    (weekStart : Weekday) (hthreshold : rule.frequency = .monthly →
      threshold.periodIndex .monthly weekStart = start.periodIndex .monthly weekStart) :
    (rule.monthLevel start threshold).Takes b ↔
      (rule.byMonth ≠ [] → b.month ∈ rule.byMonth) ∧
      (rule.frequency = .yearly → rule.byMonth = [] → rule.leavesDay → b.month = start.month) ∧
      (rule.frequency = .monthly → (rule.interval : Int) ∣
        b.periodIndex .monthly weekStart - start.periodIndex .monthly weekStart) := by
  rw [monthLevel, ← daySource_eq_startDay_iff]
  by_cases hopen : rule.daySource = .startDay ∧ rule.countsInYear = true
  · rw [if_pos hopen]
    obtain ⟨hday, hcounts⟩ := hopen
    obtain ⟨hyearly, hempty⟩ := (countsInYear_iff rule).1 hcounts
    simp [Level.Takes, Level.field, Selection.field, ByList.field, Selection.values,
      ByList.values, Stamp.get, hday, hyearly, hempty]
  · rw [if_neg hopen]
    have hleft : rule.frequency = .yearly → rule.byMonth = [] → rule.daySource = .startDay →
        b.month = start.month := fun hy he hd =>
      absurd ⟨hd, (countsInYear_iff rule).2 ⟨hy, he⟩⟩ hopen
    rw [and_iff_right hleft]
    by_cases hlist : rule.byMonth ≠ [] ∧ ¬ (rule.frequency = .monthly ∧ rule.interval > 1)
    · rw [if_pos hlist]
      have hdvd : rule.frequency = .monthly → (rule.interval : Int) ∣
          b.periodIndex .monthly weekStart - start.periodIndex .monthly weekStart := fun hm =>
        (one_lt_imp_dvd_iff hr _).1 fun hlt => absurd ⟨hm, hlt⟩ hlist.2
      rw [and_iff_left hdvd]
      simp [Level.Takes, Level.field, Selection.field, ByList.field, Selection.values,
        ByList.values, Stamp.get, hlist.1]
    · rw [if_neg hlist]
      have hsteps := Steps.get_mem_values_iff
        ⟨.month, Frequency.monthly.strideOf rule.frequency rule.interval, threshold⟩ hb ht weekStart
      have hfilters : (∀ φ ∈ (if rule.byMonth = [] then [] else
          [Filter.list (.months rule.byMonth)]), φ.accepts b = true) ↔
          (rule.byMonth ≠ [] → b.month ∈ rule.byMonth) := by
        split_ifs with h <;> simp [h, Filter.accepts, ByList.accepts]
      refine Iff.trans (and_congr hsteps hfilters) (and_comm.trans (and_congr_right fun _ => ?_))
      by_cases hm : rule.frequency = .monthly
      · rw [← hthreshold hm]
        simp only [hm, forall_const, Field.frequency, Steps.stride, Frequency.strideOf, if_true,
          Nat.max_eq_left hr]
      · simp only [hm, false_implies, iff_true, Steps.stride, Frequency.strideOf, if_false,
          Nat.max_self]
        exact Int.one_dvd _

/-! ### What the days take -/

theorem source_of_mem_dayLists {source : DaySource} {list : ByList}
    (h : (source, list) ∈ rule.dayLists) : source ≠ .startDay ∧ ∀ n, source ≠ .everyDays n := by
  rw [mem_dayLists] at h
  rcases h with ⟨-, rfl, -⟩ | ⟨-, rfl, -⟩ | ⟨-, rfl, -⟩ | ⟨-, rfl, -⟩ <;> simp

/-- A list of days selects what it accepts. -/
theorem day_mem_values_iff (hb : b.Occurs) {list : ByList} (hday : list.field = .day) :
    b.day ∈ list.values b ↔ list.accepts b = true := by
  rw [ByList.mem_values_days hday]
  exact and_iff_right ⟨(Date.day_le hb.date).1, Date.day_le_monthLength hb.date⟩

theorem mem_startDay_iff (hb : b.Occurs) (hs : start.Occurs) (hday : rule.daySource = .startDay) :
    b.day ∈ (rule.daySelection start).values b ↔ b.day = start.day := by
  have hselection : rule.daySelection start = .list (.monthDays [signedDay start.day]) := by
    rw [daySelection, hday]
  have hbday := Date.day_le hb.date
  have hsday := Date.day_le hs.date
  have hlen := Date.day_le_monthLength hb.date
  simp only [Stamp.date] at hbday hsday hlen
  rw [hselection, Selection.values, day_mem_values_iff hb rfl,
    ByList.accepts_monthDays_iff hb.date, signedDay_eq (by omega)]
  simp only [List.mem_singleton, exists_eq_left, IsPlace]
  omega

theorem mem_everyDays_iff (hb : b.Occurs) (hs : start.Occurs) {n : Nat}
    (hevery : rule.daySource = .everyDays n) :
    b.day ∈ (rule.daySelection start).values b ↔
      ((max n 1 : Nat) : Int) ∣ b.date.days - start.date.days := by
  have hselection : rule.daySelection start = .steps ⟨.day, n, start⟩ := by
    rw [daySelection, hevery]
  rw [hselection]
  exact Steps.get_mem_values_iff ⟨.day, n, start⟩ hb hs .monday

/-- The source of the days selects what it accepts: a list its days, the start
its own day, or so many days after each other. -/
theorem mem_daySelection_iff (hb : b.Occurs) (hs : start.Occurs) :
    b.day ∈ (rule.daySelection start).values b ↔
      (∀ p ∈ rule.dayLists, p.1 = rule.daySource → p.2.accepts b = true) ∧
      (rule.leavesDay → b.day = start.day) ∧
      ∀ n, rule.daySource = .everyDays n →
        ((max n 1 : Nat) : Int) ∣ b.date.days - start.date.days := by
  rw [← daySource_eq_startDay_iff]
  rcases rule.daySource_cases with ⟨list, hlist⟩ | hday | ⟨n, hevery⟩
  · have hselection := daySelection_of_mem start hlist rfl
    obtain ⟨hstart, hevery⟩ := source_of_mem_dayLists hlist
    rw [hselection, Selection.values, day_mem_values_iff hb (field_of_mem_dayLists hlist)]
    constructor
    · refine fun h => ⟨fun p hp hsource => ?_, fun h' => absurd h' hstart,
        fun n h' => absurd h' (hevery n)⟩
      -- a source stands for one list only
      have hsame := daySelection_of_mem start hp hsource
      rw [hselection, Selection.list.injEq] at hsame
      rwa [← hsame]
    · exact fun h => h.1 _ hlist rfl
  · have hlists : ∀ p ∈ rule.dayLists, p.1 = rule.daySource → p.2.accepts b = true :=
      fun p hp hsource => absurd (hsource.trans hday) (source_of_mem_dayLists hp).1
    rw [mem_startDay_iff hb hs hday, and_iff_right hlists]
    simp [hday]
  · have hlists : ∀ p ∈ rule.dayLists, p.1 = rule.daySource → p.2.accepts b = true :=
      fun p hp hsource => absurd (hsource.trans hevery) ((source_of_mem_dayLists hp).2 n)
    rw [mem_everyDays_iff hb hs hevery, and_iff_right hlists]
    simp [hevery]

theorem accepts_dayFilters_iff : (∀ φ ∈ rule.dayFilters start, φ.accepts b = true) ↔
    (rule.frequency = .weekly ∧ rule.byDay ≠ [] ∧ rule.interval > 1 →
      (Filter.everyWeek rule.interval rule.firstWeekday start.date).accepts b = true) ∧
    ∀ p ∈ rule.dayLists, p.1 ≠ rule.daySource → p.2.accepts b = true := by
  simp only [dayFilters, List.forall_mem_append, List.forall_mem_map, List.mem_filter,
    decide_eq_true_eq, and_imp]
  refine and_congr ?_ Iff.rfl
  split_ifs with h
  · simp [h]
  · simp only [List.not_mem_nil, false_implies, implies_true, true_iff]
    exact fun h₁ h₂ h₃ => absurd ⟨h₁, h₂, h₃⟩ h

/-- The weeks of a filter are counted from that of the start. -/
theorem accepts_everyWeek_iff (hb : b.Occurs) (hs : start.Occurs)
    (hfb : firstDay + 6 ≤ b.date.days) (hfs : firstDay + 6 ≤ start.date.days) {interval : Nat}
    (hi : 1 ≤ interval) (weekStart : Weekday) :
    (Filter.everyWeek interval weekStart start.date).accepts b = true ↔
      start.periodIndex .weekly weekStart ≤ b.periodIndex .weekly weekStart ∧
      (interval : Int) ∣
        b.periodIndex .weekly weekStart - start.periodIndex .weekly weekStart := by
  obtain ⟨hbin, hbdays⟩ := Date.startOfWeek_spec hb.date weekStart hfb
  obtain ⟨hsin, hsdays⟩ := Date.startOfWeek_spec hs.date weekStart hfs
  have hweeks : ((b.date.startOfWeek weekStart).dayNumber -
      (start.date.startOfWeek weekStart).dayNumber).tdiv 7 =
      b.periodIndex .weekly weekStart - start.periodIndex .weekly weekStart := by
    rw [Date.dayNumber_eq hbin, Date.dayNumber_eq hsin, hbdays, hsdays]
    simp only [midweek, Stamp.periodIndex]
    rw [show ∀ x y w : Int, 7 * x + w - 3 - (7 * y + w - 3) = (x - y) * 7 by omega]
    exact Int.mul_tdiv_cancel _ (by decide)
  simp only [Filter.everyWeek, Filter.accepts, hweeks, Nat.max_eq_left hi, Bool.and_eq_true,
    decide_eq_true_eq, beq_iff_eq, Int.dvd_iff_emod_eq_zero]
  refine and_congr_left fun _ => ?_
  omega

/-- Days that lie whole multiples of so many weeks apart fall on one weekday. -/
theorem seven_dvd_iff (interval : Nat) (n m : Int) (weekStart : Weekday) :
    (((interval * 7 : Nat) : Int) ∣ n - m ↔ Weekday.ofDay n = Weekday.ofDay m ∧
      (interval : Int) ∣ weekIndex weekStart n - weekIndex weekStart m) := by
  rw [Weekday.ofDay_eq_iff, weekIndex, weekIndex]
  have := Weekday.index_lt weekStart
  constructor
  · rintro ⟨q, hq⟩
    have hq' : n - m = 7 * (interval * q) := by
      rw [hq]
      push_cast
      ring
    refine ⟨by omega, q, ?_⟩
    omega
  · rintro ⟨hmod, q, hq⟩
    refine ⟨q, ?_⟩
    have : ((interval * 7 : Nat) : Int) * q = 7 * (interval * q) := by
      push_cast
      ring
    rw [this]
    omega

theorem everyDays_iff (hr : 1 ≤ rule.interval) (n m : Int) (weekStart : Weekday) :
    (∀ k, rule.daySource = .everyDays k → ((max k 1 : Nat) : Int) ∣ n - m) ↔
      (rule.frequency = .weekly → rule.byDay = [] → Weekday.ofDay n = Weekday.ofDay m ∧
        (rule.interval : Int) ∣ weekIndex weekStart n - weekIndex weekStart m) ∧
      (rule.frequency = .daily → (rule.interval : Int) ∣ n - m) := by
  cases hf : rule.frequency with
  | yearly | monthly =>
    have : ∀ k, rule.daySource ≠ .everyDays k := by
      intro k
      simp only [daySource, hf]
      split_ifs <;> simp
    simp [this]
  | weekly =>
    simp only [daySource, hf]
    split_ifs with h
    · simp [h]
    · rw [ne_eq, not_not] at h
      have hmax : max (rule.interval * 7) 1 = rule.interval * 7 := by omega
      simp only [DaySource.everyDays.injEq, forall_eq', hmax, h, forall_const,
        false_implies, and_true]
      exact seven_dvd_iff rule.interval n m weekStart
  | daily =>
    have hmax : max rule.interval 1 = rule.interval := Nat.max_eq_left hr
    simp only [daySource, hf, DaySource.everyDays.injEq, forall_eq', hmax, reduceCtorEq,
      false_implies, true_and, forall_const]
  | hourly | minutely | secondly => simp [daySource, hf]

/-- **The days take what the rule says of days**: what its lists accept, or the
start's day or weekday where they are left open, in every so many weeks or days
if the rule steps through these. -/
theorem takes_dayLevel (hr : 1 ≤ rule.interval) (hb : b.Occurs) (hs : start.Occurs)
    (hfb : firstDay + 6 ≤ b.date.days) (hfs : firstDay + 6 ≤ start.date.days)
    (hle : start.periodIndex rule.frequency rule.firstWeekday ≤
      b.periodIndex rule.frequency rule.firstWeekday) :
    (⟨rule.daySelection start, rule.dayFilters start⟩ : Level).Takes b ↔
      (∀ p ∈ rule.dayLists, p.2.accepts b = true) ∧
      (rule.leavesDay → b.day = start.day) ∧
      (rule.frequency = .weekly → rule.byDay = [] →
        Weekday.ofDay b.date.days = Weekday.ofDay start.date.days) ∧
      (rule.frequency = .weekly ∨ rule.frequency = .daily → (rule.interval : Int) ∣
        b.periodIndex rule.frequency rule.firstWeekday -
          start.periodIndex rule.frequency rule.firstWeekday) := by
  have hfield := field_daySelection rule start
  rw [Level.Takes, Level.field, hfield, show b.get .day = b.day from rfl,
    mem_daySelection_iff hb hs, accepts_dayFilters_iff,
    everyDays_iff hr _ _ rule.firstWeekday]
  have hlists : (∀ p ∈ rule.dayLists, p.2.accepts b = true) ↔
      (∀ p ∈ rule.dayLists, p.1 = rule.daySource → p.2.accepts b = true) ∧
      ∀ p ∈ rule.dayLists, p.1 ≠ rule.daySource → p.2.accepts b = true := by
    constructor
    · exact fun h => ⟨fun p hp _ => h p hp, fun p hp _ => h p hp⟩
    · intro h p hp
      by_cases hsource : p.1 = rule.daySource
      · exact h.1 p hp hsource
      · exact h.2 p hp hsource
  rw [hlists]
  by_cases hweekly : rule.frequency = .weekly
  · rw [hweekly] at hle
    simp only [hweekly, true_and, forall_const, reduceCtorEq, false_implies, and_true,
      or_false]
    rw [accepts_everyWeek_iff hb hs hfb hfs hr, and_iff_right hle]
    by_cases hempty : rule.byDay = []
    · simp only [hempty, ne_eq, not_true_eq_false, false_and, false_implies, forall_const,
        Stamp.periodIndex]
      tauto
    · simp only [hempty, ne_eq, not_false_eq_true, true_and, false_implies,
        one_lt_imp_dvd_iff hr]
      tauto
  · by_cases hdaily : rule.frequency = .daily
    · simp only [hdaily, reduceCtorEq, false_and, false_implies, true_and, forall_const, or_true,
        Stamp.periodIndex]
      tauto
    · simp only [hweekly, hdaily, false_and, false_implies, true_and, and_true, or_self]
      tauto

/-! ### What the times take -/

/-- Steps of a field of the time are counted in its periods. -/
theorem mem_timeSteps_iff (hb : b.Occurs) (hs : start.Occurs) {f : TimeField}
    (hf : f ∈ rule.timeFields) {interval : Nat} (hi : 1 ≤ interval) (weekStart : Weekday) :
    b.get f.field ∈ (Steps.mk f.field interval start).values b ↔ (interval : Int) ∣
      b.periodIndex f.frequency weekStart - start.periodIndex f.frequency weekStart := by
  have hiff := Steps.get_mem_values_iff ⟨f.field, interval, start⟩ hb hs weekStart
  rw [Steps.stride_of_pos f.field hi start] at hiff
  rw [← (reads_of_mem hf).frequency]
  exact hiff

theorem takes_listLevel {f : TimeField} (hf : f ∈ rule.timeFields) (ns : List Nat) :
    (⟨.list (f.list ns), []⟩ : Level).Takes b ↔ b.get f.field ∈ ns := by
  obtain ⟨hfield, hvalues, -, -⟩ := reads_of_mem hf
  simp only [Level.Takes, Level.field, Selection.field, Selection.values, hfield, hvalues,
    ByList.mem_ascending, List.not_mem_nil, false_implies, implies_true, and_true]

/-- The field that a rule steps through takes whole multiples of the interval
that its list accepts. -/
theorem takes_ownTimeLevel (hr : 1 ≤ rule.interval) (hb : b.Occurs) (hs : start.Occurs)
    {f : TimeField} (hf : f ∈ rule.timeFields) (hown : rule.frequency = f.frequency)
    (weekStart : Weekday) :
    (rule.timeLevel start f).Takes b ↔ (f.values ≠ [] → b.get f.field ∈ f.values) ∧
      (rule.interval : Int) ∣
        b.periodIndex f.frequency weekStart - start.periodIndex f.frequency weekStart := by
  have hsteps := mem_timeSteps_iff hb hs hf hr weekStart
  unfold timeLevel
  rw [if_pos hown]
  split_ifs with hempty hone
  · simp [Level.Takes, Level.field, Selection.field, Selection.values, hsteps, hempty]
  · rw [takes_listLevel hf, hone]
    simp [hempty]
  · simp [Level.Takes, Level.field, Selection.field, Selection.values, hsteps, hempty,
      Filter.accepts, (reads_of_mem hf).accepts, and_comm]

/-- Any other field takes what its list accepts, or repeats the start's if it is
finer than the rule's periods. -/
theorem takes_otherTimeLevel (hb : b.Occurs) (hs : start.Occurs) {f : TimeField}
    (hf : f ∈ rule.timeFields) (hother : rule.frequency ≠ f.frequency) :
    (rule.timeLevel start f).Takes b ↔ rule.FitsTime start b f := by
  unfold timeLevel
  rw [if_neg hother]
  split_ifs with hempty hfiner
  · rw [takes_listLevel hf]
    exact ⟨fun h => ⟨fun _ => h, fun he => absurd he hempty⟩, fun h => h.listed hempty⟩
  · rw [ne_eq, not_not] at hempty
    have hsteps := mem_timeSteps_iff hb hs hf (Nat.le_refl 1) .monday
    have htakes : (⟨.steps ⟨f.field, 1, start⟩, []⟩ : Level).Takes b :=
      ⟨hsteps.2 (Int.one_dvd _), fun _ h => absurd h List.not_mem_nil⟩
    exact iff_of_true htakes ⟨fun h => absurd hempty h, fun _ h => by omega⟩
  · rw [ne_eq, not_not] at hempty
    have hrank : f.frequency.rank < rule.frequency.rank := by
      have := mt Frequency.rank_inj hother
      omega
    rw [takes_listLevel hf, List.mem_singleton]
    exact ⟨fun h => ⟨fun hne => absurd hempty hne, fun _ _ => h⟩, fun h => h.left hempty hrank⟩

/-- **A field of the time takes what its list accepts**, or else repeats the
start's if it is finer than the rule's periods, and only whole multiples of the
interval if the rule steps through it. -/
theorem takes_timeLevel (hr : 1 ≤ rule.interval) (hb : b.Occurs) (hs : start.Occurs)
    {f : TimeField} (hf : f ∈ rule.timeFields) (weekStart : Weekday) :
    (rule.timeLevel start f).Takes b ↔ rule.FitsTime start b f ∧
      (rule.frequency = f.frequency → (rule.interval : Int) ∣
        b.periodIndex f.frequency weekStart - start.periodIndex f.frequency weekStart) := by
  by_cases hown : rule.frequency = f.frequency
  · have hleft : f.values = [] → f.frequency.rank < rule.frequency.rank →
        b.get f.field = start.get f.field := by
      intro _ h
      rw [hown] at h
      exact absurd h (Nat.lt_irrefl _)
    have hfits : rule.FitsTime start b f ↔ (f.values ≠ [] → b.get f.field ∈ f.values) :=
      ⟨fun h => h.listed, fun h => ⟨h, hleft⟩⟩
    rw [takes_ownTimeLevel hr hb hs hf hown weekStart, hfits]
    simp only [hown, forall_const]
  · rw [takes_otherTimeLevel hb hs hf hown]
    simp only [hown, false_implies, and_true]

theorem takes_midnightLevel {f : TimeField} (hf : f ∈ rule.timeFields) :
    (midnightLevel f).Takes b ↔ b.get f.field = 0 := by
  obtain ⟨hfield, hvalues, -, -⟩ := reads_of_mem hf
  simp [midnightLevel, Level.Takes, Level.field, Selection.field, Selection.values, hfield,
    hvalues]

end Rule

end Recurrence
