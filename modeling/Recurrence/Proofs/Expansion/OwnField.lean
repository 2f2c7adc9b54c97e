/-
# The list of the field that a rule steps through

A rule that repeats hourly, minutely or by the second may list the hours, minutes or
seconds that it takes. The list only restricts: the candidates are those of the rule
without the list whose field is listed. With any interval but 1 the field is stepped
through and filtered; with the interval 1 it is taken from the list itself, which agrees
as long as the list stays within the values of the field. The second 60 may be listed,
and no step reaches it: taken from the list it comes in every minute that the rule
reaches.

Key definitions: `Frequency.timeField?`, `Rule.listing`, `Rule.ReachesLeap`.
Key theorems: `Rule.takes_ownLevel_iff`, `Rule.mem_pending_listing`,
`Rule.listing_restricts_iff`.
-/
import Recurrence.Proofs.Expansion.Candidates
import Recurrence.Proofs.Moment.Spelling

namespace Recurrence

/-- The field of the time of day that a frequency steps through. -/
def Frequency.timeField? : Frequency → Option Field
  | .hourly => some .hour
  | .minutely => some .minute
  | .secondly => some .second
  | .yearly | .monthly | .weekly | .daily => none

/-- The largest entry that the list of a field may have. -/
def Field.lastEntry : Field → Nat
  | .month => 12
  | .day => 31
  | .hour => 23
  | .minute => 59
  | .second => 60

theorem Frequency.timeField?_cases {frequency : Frequency} {field : Field}
    (h : frequency.timeField? = some field) :
    frequency = .hourly ∧ field = .hour ∨ frequency = .minutely ∧ field = .minute ∨
      frequency = .secondly ∧ field = .second := by
  cases frequency <;> simp_all [timeField?]

namespace Rule

/-- The rule with another list for the field of the time of day that it steps
through. -/
def listing (rule : Rule) (ns : List Nat) : Rule :=
  match rule.frequency with
  | .hourly => { rule with byHour := ns }
  | .minutely => { rule with byMinute := ns }
  | .secondly => { rule with bySecond := ns }
  | .yearly | .monthly | .weekly | .daily => rule

/-- Whether a rule takes its seconds from a list that holds the leap second. -/
def ReachesLeap (rule : Rule) (ns : List Nat) : Prop :=
  rule.frequency = .secondly ∧ rule.interval = 1 ∧ 60 ∈ ns

variable {rule : Rule} {ns : List Nat} {field : Field} {start threshold b : Stamp}

@[simp] theorem frequency_listing (rule : Rule) (ns : List Nat) :
    (rule.listing ns).frequency = rule.frequency := by
  unfold listing
  split <;> rfl

@[simp] theorem interval_listing (rule : Rule) (ns : List Nat) :
    (rule.listing ns).interval = rule.interval := by
  unfold listing
  split <;> rfl

@[simp] theorem bySetPos_listing (rule : Rule) (ns : List Nat) :
    (rule.listing ns).bySetPos = rule.bySetPos := by
  unfold listing
  split <;> rfl

/-! ### The level of the own field -/

/-- The own field of a rule with a list for it. -/
def ownField (frequency : Frequency) (field : Field) (ns : List Nat) : TimeField where
  field
  frequency
  values := ns
  list := match field with
    | .minute => .minutes
    | .second => .seconds
    | .month | .day | .hour => .hours

/-- The levels that the own list does not concern. -/
def otherLevels (rule : Rule) (start threshold : Stamp) : List Level :=
  [rule.monthLevel start threshold, ⟨rule.daySelection start, rule.dayFilters start⟩] ++
    (rule.timeFields.filter (·.frequency ≠ rule.frequency)).map (rule.timeLevel start)

/-- The own field stands among the others, which the list leaves as they are. -/
theorem takes_levels_listing (h : rule.frequency.timeField? = some field) :
    (∀ level ∈ (rule.listing ns).levels start threshold false, level.Takes b) ↔
      (∀ level ∈ rule.otherLevels start threshold, level.Takes b) ∧
        (rule.timeLevel start (ownField rule.frequency field ns)).Takes b := by
  have hlevels : (rule.listing ns).levels start threshold false =
      [rule.monthLevel start threshold, ⟨rule.daySelection start, rule.dayFilters start⟩] ++
        (rule.listing ns).timeFields.map (rule.timeLevel start) := by
    unfold listing
    split <;> rfl
  rw [hlevels]
  obtain ⟨hf, rfl⟩ | ⟨hf, rfl⟩ | ⟨hf, rfl⟩ := Frequency.timeField?_cases h
  all_goals
    simp only [listing, otherLevels, timeFields, ownField, hf, List.cons_append, List.nil_append,
      List.map_cons, List.map_nil, List.forall_mem_cons, List.not_mem_nil, false_implies,
      implies_true, and_true, ne_eq, reduceCtorEq, not_true_eq_false, not_false_eq_true,
      decide_true, decide_false, List.filter_cons_of_pos, List.filter_cons_of_neg,
      Bool.false_eq_true, List.filter_nil]
    tauto

/-- The own field is read as the other fields are. -/
theorem reads_ownField (h : rule.frequency.timeField? = some field) (ns : List Nat) :
    TimeField.Reads (ownField rule.frequency field ns) := by
  obtain ⟨hf, rfl⟩ | ⟨hf, rfl⟩ | ⟨hf, rfl⟩ := Frequency.timeField?_cases h
  all_goals
    rw [hf]
    exact ⟨fun _ => rfl, fun _ _ => rfl, fun _ _ => rfl, rfl⟩

/-- Steps of one take every value that the field has in a period. -/
theorem takes_steps_one {field : Field} :
    (⟨.steps ⟨field, 1, start⟩, []⟩ : Level).Takes b ↔
      Steps.lowest field ≤ b.get field ∧ b.get field ≤ Steps.highest field b := by
  have hvalues := Steps.mem_values ⟨field, 1, start⟩ b (b.get field)
  rw [Steps.stride_of_pos field Nat.one_pos start, Nat.cast_one,
    and_iff_left (Int.one_dvd _)] at hvalues
  simpa [Level.Takes, Level.field, Selection.field, Selection.values] using hvalues

/-- Without a list every second of a minute is taken. -/
theorem takes_everySecond (hone : rule.interval = 1) :
    (rule.timeLevel start (ownField rule.frequency .second [])).Takes b ↔ b.second ≤ 59 := by
  have hlevel : rule.timeLevel start (ownField rule.frequency .second []) =
      ⟨.steps ⟨.second, 1, start⟩, []⟩ := by
    simp [timeLevel, ownField, hone]
  rw [hlevel, takes_steps_one]
  exact and_iff_right (Nat.zero_le _)

/-- **What the own field takes with a list**: what it takes without one, if it is listed,
and with the interval 1 also what is listed beyond the values of the field. -/
theorem takes_ownLevel_iff (h : rule.frequency.timeField? = some field) (hns : ns ≠ []) :
    (rule.timeLevel start (ownField rule.frequency field ns)).Takes b ↔
      (rule.timeLevel start (ownField rule.frequency field [])).Takes b ∧ b.get field ∈ ns ∨
        rule.interval = 1 ∧ b.get field ∈ ns ∧ Steps.highest field b < b.get field := by
  obtain ⟨hfield, hvalues, haccepts, -⟩ := reads_ownField h ns
  have hlow : Steps.lowest field = 0 := by
    obtain ⟨-, rfl⟩ | ⟨-, rfl⟩ | ⟨-, rfl⟩ := Frequency.timeField?_cases h <;> rfl
  have hlisted : (⟨.list ((ownField rule.frequency field ns).list ns), []⟩ : Level).Takes b ↔
      b.get field ∈ ns := by
    simp only [Level.Takes, Level.field, Selection.field, Selection.values, hfield, hvalues,
      ByList.mem_ascending, List.not_mem_nil, false_implies, implies_true, and_true]
    rfl
  have hopen : rule.timeLevel start (ownField rule.frequency field []) =
      ⟨.steps ⟨field, rule.interval, start⟩, []⟩ := by
    simp [timeLevel, ownField]
  rw [hopen]
  by_cases hone : rule.interval = 1
  · have hlevel : rule.timeLevel start (ownField rule.frequency field ns) =
        ⟨.list ((ownField rule.frequency field ns).list ns), []⟩ := by
      simp [timeLevel, ownField, hns, hone]
    rw [hlevel, hlisted, hone, takes_steps_one, hlow]
    constructor
    · intro hmem
      exact (le_or_gt (b.get field) (Steps.highest field b)).imp
        (fun hle => ⟨⟨Nat.zero_le _, hle⟩, hmem⟩) fun hlt => ⟨rfl, hmem, hlt⟩
    · rintro (⟨-, hmem⟩ | ⟨-, hmem, -⟩) <;> exact hmem
  · have hlevel : rule.timeLevel start (ownField rule.frequency field ns) =
        ⟨.steps ⟨field, rule.interval, start⟩,
          [.list ((ownField rule.frequency field ns).list ns)]⟩ := by
      simp [timeLevel, ownField, hns, hone]
    have hfilter : ((ownField rule.frequency field ns).list ns).accepts b = true ↔
        b.get field ∈ ns := by
      rw [haccepts, List.contains_iff_mem]
      rfl
    simp only [hlevel, Level.Takes, Level.field, Selection.field, List.forall_mem_singleton,
      Filter.accepts, hfilter, hone, false_and, or_false, List.not_mem_nil, false_implies,
      implies_true, and_true]

/-! ### The candidates -/

/-- The other levels of a rule that repeats by the second do not look at the second. -/
theorem takes_otherLevels_second (hsec : rule.frequency = .secondly) (n : Nat) :
    (∀ level ∈ rule.otherLevels start threshold, level.Takes { b with second := n }) ↔
      ∀ level ∈ rule.otherLevels start threshold, level.Takes b := by
  have hcoarse : ∀ level ∈ rule.otherLevels start threshold, level.field ≠ .second ∧
      ∀ φ ∈ level.filters, φ.field = level.field := by
    intro level hlevel
    simp only [otherLevels, List.mem_append, List.mem_cons, List.not_mem_nil, or_false,
      List.mem_map, List.mem_filter, decide_eq_true_eq] at hlevel
    rcases hlevel with (rfl | rfl) | ⟨f, ⟨hf, hother⟩, rfl⟩
    · obtain ⟨hfield, hfilters⟩ := field_monthLevel rule start threshold
      exact ⟨by simp [hfield], fun φ hφ => (hfilters φ hφ).trans hfield.symm⟩
    · have hfield := field_daySelection rule start
      exact ⟨by simp [Level.field, hfield],
        fun φ hφ => (field_dayFilters rule start φ hφ).trans hfield.symm⟩
    · obtain ⟨hfield, hfilters⟩ := field_timeLevel hf start
      refine ⟨fun hsecond => hother ?_, fun φ hφ => (hfilters φ hφ).trans hfield.symm⟩
      rw [← (reads_of_mem hf).frequency, hsec, ← hfield, hsecond]
      rfl
  refine forall₂_congr fun level hlevel => ?_
  obtain ⟨hfield, hfilters⟩ := hcoarse level hlevel
  refine Level.takes_congr hfilters ?_
  cases hf : level.field <;> first | rfl | exact absurd hf hfield

variable {start : Moment} {limits : Limits}

/-- Whether a stamp is a candidate of a rule as far as all but its own field is
concerned. -/
structure Reaches (rule : Rule) (start : Moment) (limits : Limits) (b : Stamp) : Prop where
  year : b.year ∈ (YearSteps.of (rule.threshold (.ofMoment start)).year 1 limits.maxYear).toList
  behind : rule.threshold (.ofMoment start) ≤ b
  others : ∀ level ∈ rule.otherLevels (.ofMoment start) (rule.threshold (.ofMoment start)),
    level.Takes b

/-- What the walk of a rule with a list for its own field stands for. -/
theorem mem_pending_listing (h : rule.frequency.timeField? = some field)
    (ht : start.hasTime = true) (ns : List Nat) (b : Stamp) :
    b ∈ ((rule.listing ns).candidates start limits).cascade.pending ↔
      rule.Reaches start limits b ∧
        (rule.timeLevel (.ofMoment start) (ownField rule.frequency field ns)).Takes b := by
  have hthreshold : (rule.listing ns).threshold = rule.threshold := by
    unfold listing
    split <;> rfl
  have hstride : Frequency.yearly.strideOf (rule.listing ns).frequency (rule.listing ns).interval =
      1 := by
    rw [frequency_listing, Frequency.strideOf, if_neg]
    intro hyearly
    rw [hyearly] at h
    exact absurd h (by simp [Frequency.timeField?])
  rw [mem_pending, hthreshold, hstride, ht, Bool.not_true, takes_levels_listing h]
  exact ⟨fun h => ⟨⟨h.1, h.2.1, h.2.2.1⟩, h.2.2.2⟩,
    fun h => ⟨h.1.year, h.1.behind, h.1.others, h.2⟩⟩

/-- Of a minute that a rule by the second reaches, it reaches every second from the
start's on. -/
theorem Reaches.setSecond (hsec : rule.frequency = .secondly) (hpos : rule.bySetPos = [])
    (h : rule.Reaches start limits b) {n : Nat} (hn : (Stamp.ofMoment start).second ≤ n) :
    rule.Reaches start limits { b with second := n } := by
  refine ⟨h.year, ?_, (takes_otherLevels_second hsec n).2 h.others⟩
  have hbehind := h.behind
  rw [threshold, if_pos hpos, Stamp.le_iff] at hbehind ⊢
  simp only
  omega

theorem second_ofMoment_le (hstart : start.IsValid) (hplain : ¬ start.Carries) :
    (Stamp.ofMoment start).second ≤ 59 := by
  obtain ⟨date, _ | t⟩ := start
  · exact Nat.zero_le _
  · have hvalid := (hstart.2 t rfl).2.2
    have hne : t.second ≠ 60 := fun heq => hplain ⟨t, rfl, Or.inr heq⟩
    show t.second ≤ 59
    omega

/-- Of a minute that it reaches, a rule that repeats with every second takes the last
second, if it lists none. -/
theorem Reaches.lastSecond_mem (hsec : rule.frequency = .secondly) (hone : rule.interval = 1)
    (hpos : rule.bySetPos = []) (hstart : start.IsValid) (ht : start.hasTime = true)
    (hplain : ¬ start.Carries) (h : rule.Reaches start limits b) :
    { b with second := 59 } ∈ ((rule.listing []).candidates start limits).cascade.pending := by
  have htime : rule.frequency.timeField? = some .second := by
    rw [hsec]
    rfl
  refine (mem_pending_listing htime ht [] _).2
    ⟨h.setSecond hsec hpos (second_ofMoment_le hstart hplain), ?_⟩
  exact (takes_everySecond hone).2 (Nat.le_refl 59)

/-- **What a list for the own field adds and takes away.** Of the candidates without the
list those are left whose field is listed; and where the seconds are taken from a list
with the leap second, it follows the last second of every minute among them. -/
theorem mem_pending_listing_iff (limits : Limits)
    (h : rule.frequency.timeField? = some field)
    (hpos : rule.bySetPos = []) (hstart : start.IsValid) (ht : start.hasTime = true)
    (hplain : ¬ start.Carries) (hns : ns ≠ []) (hrange : ∀ n ∈ ns, n ≤ field.lastEntry)
    (b : Stamp) :
    b ∈ ((rule.listing ns).candidates start limits).cascade.pending ↔
      b ∈ ((rule.listing []).candidates start limits).cascade.pending ∧ b.get field ∈ ns ∨
        rule.ReachesLeap ns ∧ b.second = 60 ∧
          { b with second := 59 } ∈
            ((rule.listing []).candidates start limits).cascade.pending := by
  rw [mem_pending_listing h ht, mem_pending_listing h ht ([] : List Nat) b,
    takes_ownLevel_iff h hns, and_or_left, ← and_assoc (c := b.get field ∈ ns)]
  refine or_congr_right ?_
  have hcoarse : field = .hour ∨ field = .minute →
      ¬ (b.get field ∈ ns ∧ Steps.highest field b < b.get field) := by
    rintro hfield ⟨hmem, hbeyond⟩
    have := hrange _ hmem
    obtain rfl | rfl := hfield <;> simp only [Field.lastEntry, Steps.highest] at this hbeyond <;>
      omega
  obtain ⟨hf, rfl⟩ | ⟨hf, rfl⟩ | ⟨hf, rfl⟩ := Frequency.timeField?_cases h
  · exact iff_of_false (fun h => hcoarse (Or.inl rfl) h.2.2) fun hleap =>
      absurd (hf.symm.trans hleap.1.1) (by simp)
  · exact iff_of_false (fun h => hcoarse (Or.inr rfl) h.2.2) fun hleap =>
      absurd (hf.symm.trans hleap.1.1) (by simp)
  · constructor
    · rintro ⟨hreaches, hone, hmem, hbeyond⟩
      have hb : b.second = 60 := by
        have := hrange _ hmem
        simp only [Field.lastEntry, Steps.highest, Stamp.get] at this hbeyond
        omega
      exact ⟨⟨hf, hone, hb ▸ hmem⟩, hb, hreaches.lastSecond_mem hf hone hpos hstart ht hplain⟩
    · rintro ⟨⟨-, hone, hmem⟩, hb, hlast⟩
      have hreaches := ((mem_pending_listing h ht [] _).1 hlast).1.setSecond hf
        hpos ((second_ofMoment_le hstart hplain).trans (show 59 ≤ b.second by omega))
      exact ⟨hreaches, hone, by rwa [show b.get .second = 60 from hb],
        by simp [Steps.highest, Stamp.get, hb]⟩

/-- Whatever it lists for its own field, a rule hands out what its walk stands for. -/
theorem nth_listing (hpos : rule.bySetPos = []) (hd : start.date.inCalendar = true)
    (hlimits : limits.maxYear - start.date.year + 2 ≤ limits.maxYearsBetweenInstances) {n : Nat} :
    ((rule.listing ns).candidates start limits).nth n =
      ((rule.listing ns).candidates start limits).cascade.pending[n]? := by
  have hout := (lists_handedOut (rule.listing ns) hd hlimits).nth n
  rwa [handedOut, bySetPos_listing, if_pos hpos] at hout

/-- **A list for the own field only restricts**, with one exception. Call by call the
rule with the list hands out the candidates of the rule without it whose field is listed,
and besides the leap second of each of their minutes, if the seconds are taken from a list
that holds it. So the two agree exactly if that is not the case or there are no
candidates. -/
theorem listing_restricts_iff (h : rule.frequency.timeField? = some field)
    (hpos : rule.bySetPos = []) (hstart : start.IsValid) (ht : start.hasTime = true)
    (hplain : ¬ start.Carries) (hns : ns ≠ []) (hrange : ∀ n ∈ ns, n ≤ field.lastEntry)
    (hlimits : limits.maxYear - start.date.year + 2 ≤ limits.maxYearsBetweenInstances) :
    ∃ all listed : List Stamp, all.Pairwise (· < ·) ∧ listed.Pairwise (· < ·) ∧
      (∀ n, ((rule.listing []).candidates start limits).nth n = all[n]?) ∧
      (∀ n, ((rule.listing ns).candidates start limits).nth n = listed[n]?) ∧
      (∀ b, b ∈ listed ↔ b ∈ all ∧ b.get field ∈ ns ∨
        rule.ReachesLeap ns ∧ b.second = 60 ∧ { b with second := 59 } ∈ all) ∧
      (listed = all.filter (·.get field ∈ ns) ↔ ¬ (rule.ReachesLeap ns ∧ all ≠ [])) := by
  have hmem := mem_pending_listing_iff limits h hpos hstart ht hplain hns hrange
  refine ⟨_, _, pairwise_pending _ _ _, pairwise_pending _ _ _,
    fun _ => nth_listing hpos hstart.1 hlimits, fun _ => nth_listing hpos hstart.1 hlimits, hmem,
    ?_⟩
  constructor
  · rintro heq ⟨⟨hsec, hone, hsixty⟩, hne⟩
    obtain ⟨b, hb⟩ := List.exists_mem_of_ne_nil _ hne
    obtain rfl : field = .second := by
      rw [hsec] at h
      exact (Option.some.inj h).symm
    -- the leap second of the minute of any candidate is listed, but no candidate
    have hreaches := ((mem_pending_listing h ht [] b).1 hb).1
    have hlast := hreaches.lastSecond_mem hsec hone hpos hstart ht hplain
    have hleap := (hmem { b with second := 60 }).2 (Or.inr ⟨⟨hsec, hone, hsixty⟩, rfl, hlast⟩)
    rw [heq, List.mem_filter] at hleap
    have htakes := ((mem_pending_listing h ht [] _).1 hleap.1).2
    exact absurd ((takes_everySecond hone).1 htakes) (by simp)
  · intro hexcept
    refine AscendingList.eq_of_mem_iff (pairwise_pending _ _ _)
      ((pairwise_pending _ _ _).filter _) fun b => ?_
    rw [hmem, List.mem_filter, decide_eq_true_eq, or_iff_left]
    rintro ⟨hleap, -, hlast⟩
    exact hexcept ⟨hleap, List.ne_nil_of_mem hlast⟩

/-- Every other hour. -/
def everyOtherHour : Rule :=
  { every .hourly with interval := 2 }

/-- Every other hour, as far as it is the ninth or the tenth. -/
theorem listing_restricts_iff_hours :
    ∃ all listed : List Stamp, all.Pairwise (· < ·) ∧ listed.Pairwise (· < ·) ∧
      (∀ n, ((everyOtherHour.listing []).candidates (.atTime 2006 1 1 9 30 0) ⟨10, 2006⟩).nth n =
        all[n]?) ∧
      (∀ n, ((everyOtherHour.listing [9, 10]).candidates (.atTime 2006 1 1 9 30 0)
        ⟨10, 2006⟩).nth n = listed[n]?) ∧
      (∀ b, b ∈ listed ↔ b ∈ all ∧ b.get .hour ∈ [9, 10] ∨
        everyOtherHour.ReachesLeap [9, 10] ∧ b.second = 60 ∧ { b with second := 59 } ∈ all) ∧
      (listed = all.filter (·.get .hour ∈ [9, 10]) ↔
        ¬ (everyOtherHour.ReachesLeap [9, 10] ∧ all ≠ [])) :=
  listing_restricts_iff rfl rfl (by decide) rfl
    (by simp [Moment.Carries, Moment.atTime, TimeOfDay.of]) (by decide) (by decide) (by decide)

/-- **The leap second is listed but no candidate.** Every second of the list 59 and 60:
behind the last second of the first minute comes its leap second, which the rule without
the list does not have, and neither has the rule with the list and the interval 7. -/
theorem not_listing_restricts_leap :
    let rule : Rule := every .secondly
    let start : Moment := .atTime 2006 1 1 0 0 59
    let limits : Limits := ⟨10, 2006⟩
    (rule.frequency.timeField? = some .second ∧ rule.bySetPos = [] ∧ start.IsValid ∧
        start.hasTime = true ∧ ¬ start.Carries ∧ (∀ n ∈ [59, 60], n ≤ Field.lastEntry .second) ∧
        limits.maxYear - start.date.year + 2 ≤ limits.maxYearsBetweenInstances) ∧
      ((rule.listing [59, 60]).candidates start limits).nth 1 = some ⟨2006, 1, 1, 0, 0, 60⟩ ∧
      ((rule.listing []).candidates start limits).nth 1 = some ⟨2006, 1, 1, 0, 1, 0⟩ ∧
      ∀ n, ((rule.listing []).candidates start limits).nth n ≠ some ⟨2006, 1, 1, 0, 0, 60⟩ := by
  refine ⟨⟨rfl, rfl, by decide, rfl, by simp [Moment.Carries, Moment.atTime, TimeOfDay.of],
    by decide, by decide⟩, by decide +kernel, by decide +kernel, fun n hn => ?_⟩
  rw [nth_listing rfl (by decide) (by decide)] at hn
  have hb := (mem_pending_listing rfl rfl [] _).1 (List.mem_of_getElem? hn)
  exact absurd ((takes_everySecond rfl).1 hb.2) (by decide)

end Rule

end Recurrence
