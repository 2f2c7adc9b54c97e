/-
# Rules as cursors

The iterator of a rule answers as a cursor over its instants does, whatever it
is asked, as long as the candidates that it drops on its way to a date are not
needed for the date itself. Rules with a count or with positions drop none; the
others drop safely exactly if every instant is reached from the day before it.

Key definitions: `Moment.Sought`, `RuleSource.IsCursor`.
Key theorems: `Rule.inReach_of_mem_handedOut`, `RuleSource.isCursor_iff`,
`RuleSource.not_isCursor_skippedDay`.
-/
import Recurrence.Proofs.Expansion.Candidates
import Recurrence.Proofs.Source.Seek
import Recurrence.Zone.Tables

namespace Recurrence

/-- Whether a moment is valid and lies in the years from 1 to 9999. -/
structure Moment.Sought (d : Moment) : Prop where
  valid : d.IsValid
  year : 1 ≤ d.date.year ∧ d.date.year ≤ 9999

theorem Moment.Sought.inReach {d : Moment} (h : d.Sought) : d.InReach :=
  ⟨h.valid, by have := h.year; omega⟩

namespace Rule

variable {rule : Rule} {start : Moment} {limits : Limits}

/-- The candidates that an expansion may hand out are valid moments of the year before
the start or later ones, up to the last year. -/
theorem valid_of_mem_pending (hr : rule.InRange) (hstart : start.IsValid) {c : Stamp}
    (hc : c ∈ (rule.candidates start limits).cascade.pending) :
    c.IsValid ∧ start.date.year - 1 ≤ c.year ∧ c.year ≤ limits.maxYear := by
  obtain ⟨hyear, hle, htakes⟩ := (mem_pending rule start limits c).1 hc
  have hfirst : start.date.year - 1 ≤ (rule.threshold (.ofMoment start)).year :=
    threshold_year rule hstart.1
  have hyear := ((YearSteps.mem_of _ _ _ _).1 hyear).1
  have htime : (Stamp.ofMoment start).hour ≤ 24 ∧ (Stamp.ofMoment start).minute ≤ 59 ∧
      (Stamp.ofMoment start).second ≤ 60 := by
    unfold Stamp.ofMoment
    cases ht : start.time with
    | none => exact ⟨Nat.zero_le _, Nat.zero_le _, Nat.zero_le _⟩
    | some t => exact hstart.2 t ht
  have hbounds := @time_of_takes rule _ c _ _ htakes
  simp only [timeFields, List.mem_cons, List.not_mem_nil, or_false, forall_eq_or_imp,
    forall_eq] at hbounds
  exact ⟨⟨date_of_takes htakes,
    hbounds.1 htime.1 (fun n hn => (hr.byHour n hn).trans (by decide)) (show 23 ≤ 24 by decide),
    hbounds.2.1 htime.2.1 hr.byMinute (show 59 ≤ 59 by decide),
    hbounds.2.2 htime.2.2 hr.bySecond (show 59 ≤ 60 by decide)⟩, hfirst.trans hyear.1, hyear.2⟩

/-- The candidates of a rule are valid as well. -/
theorem valid_of_mem_handedOut (hr : rule.InRange) (hstart : start.IsValid) {c : Stamp}
    (hc : c ∈ rule.handedOut start limits) :
    c.IsValid ∧ start.date.year - 1 ≤ c.year ∧ c.year ≤ limits.maxYear :=
  valid_of_mem_pending hr hstart ((handedOut_sublist rule start limits).subset hc)

theorem inReach_of_mem_handedOut (hr : rule.InRange) (hstart : start.Sought)
    (hlast : limits.maxYear ≤ 9999) {c : Stamp} (hc : c ∈ rule.handedOut start limits) :
    c.InReach := by
  obtain ⟨hvalid, hfirst, hyear⟩ := valid_of_mem_handedOut hr hstart.valid hc
  have := hstart.year
  exact ⟨hvalid, by omega⟩

theorem hour_of_mem_handedOut (hr : rule.InRange) (htime : ∀ t ∈ start.time, t.hour ≤ 23)
    {c : Stamp} (hc : c ∈ rule.handedOut start limits) : c.hour ≤ 23 := by
  have hmem := (handedOut_sublist rule start limits).subset hc
  obtain ⟨-, -, htakes⟩ := (mem_pending rule start limits c).1 hmem
  have hstart : (Stamp.ofMoment start).hour ≤ 23 := by
    unfold Stamp.ofMoment
    cases ht : start.time with
    | none => exact Nat.zero_le _
    | some t => exact htime t ht
  exact time_of_takes htakes (f := ⟨.hour, .hourly, rule.byHour, .hours⟩) (by simp [timeFields])
    hstart hr.byHour (show 23 ≤ 23 by decide)

/-- Only a start or a list that carries over midnight gives candidates that
do. -/
theorem plain_of_mem_handedOut (hr : rule.InRange)
    (htime : ∀ t ∈ start.time, t.hour ≤ 23 ∧ t.second ≤ 59) (hsec : ∀ n ∈ rule.bySecond, n ≤ 59)
    {c : Stamp} (hc : c ∈ rule.handedOut start limits) : c.hour ≤ 23 ∧ c.second ≤ 59 := by
  refine ⟨hour_of_mem_handedOut hr (fun t ht => (htime t ht).1) hc, ?_⟩
  have hmem := (handedOut_sublist rule start limits).subset hc
  obtain ⟨-, -, htakes⟩ := (mem_pending rule start limits c).1 hmem
  have hstart : (Stamp.ofMoment start).second ≤ 59 := by
    unfold Stamp.ofMoment
    cases ht : start.time with
    | none => exact Nat.zero_le _
    | some t => exact (htime t ht).2
  exact time_of_takes htakes (f := ⟨.second, .secondly, rule.bySecond, .seconds⟩)
    (by simp [timeFields]) hstart hsec (show 59 ≤ 59 by decide)

end Rule

namespace RuleSource

/-- Whether an iterator answers every sequence of questions, with dates of the
years from 1 to 9999, as the list of its instants does. -/
def IsCursor (s : RuleSource) : Prop :=
  ∀ qs, Query.DatesIn Moment.Sought qs →
    (Cursor.idle s).replies qs = Query.repliesOf qs (Source.moments s)

variable {rule : Rule} {start : Moment} {zone : Zone} {limits : Limits} {offsets : List Int}

theorem prunes_of_iff (rule : Rule) (start : Moment) (zone : Zone) (limits : Limits) :
    (of rule start zone limits).Prunes ↔
      ¬ ((∃ n, rule.finish = .count n) ∨ rule.bySetPos ≠ []) := by
  rw [not_or, not_exists, ne_eq, not_not]
  refine and_congr ?_ ?_
  · unfold of
    cases rule.finish <;> simp
  · simp only [of, Rule.candidates, Candidates.isSelective]
    split <;> simp_all

/-- The instants of a rule are what its candidates give. -/
theorem moments_of (rule : Rule) (zone : Zone) (hd : start.date.inCalendar = true)
    (hlimits : limits.maxYear - start.date.year + 2 ≤ limits.maxYearsBetweenInstances) :
    Source.moments (of rule start zone limits) =
      (of rule start zone limits).emitted (rule.handedOut start limits) :=
  (yields_stands _ _).moments_eq ⟨_, Rule.lists_handedOut rule hd hlimits, List.suffix_rfl,
    rfl, SameRule.refl _⟩

/-- **When the iterator of a rule is a cursor.** It answers as the list of its
instants does exactly if it has a count or positions, or if every instant that
is asked for is still reached from the day before it. This is so whenever no two
offsets of the zone lie a whole day apart, and whenever neither the start nor
the seconds of the rule carry over the end of a day or a minute. -/
theorem isCursor_iff (hr : rule.InRange) (hstart : start.Sought) (hz : zone.HasOffsets offsets)
    (hm : Zone.Moderate offsets) (hlimits : limits.AmpleFrom start.date.year) :
    ((of rule start zone limits).IsCursor ↔
      (∃ n, rule.finish = .count n) ∨ rule.bySetPos ≠ [] ∨
        ∀ d : Moment, d.Sought →
          Zone.utc.localToUtc d ∈ Source.moments (of rule start zone limits) →
          (of rule start zone limits).Reaches d) ∧
    ((∀ o ∈ offsets, ∀ o' ∈ offsets, o' - o ≠ 86400) ∨
        ((∀ t ∈ start.time, t.hour ≤ 23 ∧ t.second ≤ 59) ∧ ∀ n ∈ rule.bySecond, n ≤ 59) →
      (of rule start zone limits).IsCursor) := by
  have hlists := Rule.lists_handedOut rule hstart.valid.1 hlimits.patience
  have hasc := Rule.pairwise_handedOut rule start limits
  have hin : ∀ c ∈ rule.handedOut start limits, c.InReach := fun c =>
    Rule.inReach_of_mem_handedOut hr hstart hlimits.last
  have hprunes := prunes_of_iff rule start zone limits
  rw [IsCursor, moments_of rule zone hstart.valid.1 hlimits.patience, ← or_assoc]
  constructor
  · constructor
    · intro hfollows
      by_cases hkeeps : (∃ n, rule.finish = .count n) ∨ rule.bySetPos ≠ []
      · exact Or.inl hkeeps
      · exact Or.inr fun d hd hv => reaches_of_follows hz hm hlists hasc hin (hprunes.2 hkeeps) hd
          hd.inReach hfollows hv
    · intro h
      refine follows_emitted hlists hasc fun hp d hd => ?_
      have hreaches := h.resolve_left (hprunes.1 hp)
      exact dropsSafely_of_reaches hz hm hin hd.inReach fun hv _ => hreaches d hd hv
  · intro hclose
    refine follows_emitted hlists hasc fun _ d hd => ?_
    refine dropsSafely_of_reaches hz hm hin hd.inReach fun _ ⟨x, hx, hlt, hge⟩ => ?_
    -- no candidate that is dropped gives the date
    rcases instant_of_lt_dayBefore hz hm (hin x hx) hd.inReach hlt with
      h | ⟨-, -, -, hcarry, o, ho, o', ho', hapart⟩
    · exact absurd h hge
    · rcases hclose with hclose | ⟨htime, hsec⟩
      · exact absurd hapart (hclose o ho o' ho')
      · have hplain := Rule.plain_of_mem_handedOut hr htime hsec hx
        omega

/-- The clocks of New York in 2007. -/
def summerTime : TransitionTable :=
  ⟨-18000, [⟨1173596400, -14400⟩, ⟨1194156000, -18000⟩]⟩

theorem isCursor_iff_summerTime :
    (of Rule.lastSundays (.atTime 2005 4 24 9 15 0) summerTime.zone ⟨6, 2009⟩).IsCursor :=
  (isCursor_iff (by constructor <;> simp [Rule.lastSundays, Rule.every])
    ⟨by decide, by decide⟩ (.table summerTime) ⟨by decide, by decide⟩ ⟨by decide, by decide⟩).2
    (Or.inl (by decide))

/-- Clocks that skip a whole day, as those of Kwajalein did in August 1993. -/
def skippedDay : TransitionTable :=
  ⟨-43200, [⟨745934400, 43200⟩]⟩

/-- Every other day. -/
def everyOtherDay : Rule :=
  { Rule.every .daily with interval := 2 }

/-- **Passing to a date can lose it.** Where the clocks skip a day, the end of
the day before is more than a day behind on them, so the candidate that gives
the instant is dropped when it is asked for. -/
theorem not_isCursor_skippedDay :
    (everyOtherDay.InRange ∧ (Moment.atTime 1993 8 20 24 0 0).Sought ∧
      skippedDay.zone.HasOffsets skippedDay.offsets ∧ Zone.Moderate skippedDay.offsets ∧
      (⟨10, 1994⟩ : Limits).AmpleFrom 1993) ∧
      ¬ (of everyOtherDay (.atTime 1993 8 20 24 0 0) skippedDay.zone ⟨10, 1994⟩).IsCursor ∧
      ¬ (of everyOtherDay (.atTime 2011 12 29 24 0 0) TransitionTable.apia.zone
        ⟨10, 2012⟩).IsCursor := by
  refine ⟨⟨by constructor <;> simp [everyOtherDay, Rule.every], ⟨by decide, by decide⟩,
    .table skippedDay, ⟨by decide, by decide⟩, ⟨by decide, by decide⟩⟩, fun h => ?_, fun h => ?_⟩
  · have hreplies := h [.advanceTo (.atTime 1993 8 21 12 0 0), .next]
      (Query.datesIn_advanceTo_next ⟨by decide, by decide⟩)
    exact absurd hreplies (by decide +kernel)
  · have hreplies := h [.advanceTo (.atTime 2011 12 30 10 0 0), .next]
      (Query.datesIn_advanceTo_next ⟨by decide, by decide⟩)
    exact absurd hreplies (by decide +kernel)

end RuleSource

end Recurrence
