/-
# A text describes a set

What the lines of a text say together depends on which lines there are: the set of a
text answers as the ascending list of the moments that are its start or an instant of
an including line, and no instant of an excluding one, each line being expanded from
the start by itself. So the order of the lines and their number do not matter, and
blank lines neither. This takes that every rule passes safely to the moments of the
other lines: one that drops an instant on its way does not exclude it. Which zones a
database knows matters for reading the lines only.

Key definitions: `Line.instants`, `RecurrenceSet.Has`, `RecurrenceSet.ReadsAs`.
Key theorems: `Cursor.Follows.moments_eq`, `Line.follows_instants`,
`RecurrenceSet.exists_readsAs`, `RecurrenceSet.not_has_skippedDay`.
-/
import Recurrence.Proofs.Set.Instants
import Recurrence.Proofs.Source.CalendarEnds
import Recurrence.Proofs.Text.Lines

namespace Recurrence

open Reading RuleSource

/-- A source that a list is followed by has the moments of the list. -/
theorem Cursor.Follows.moments_eq {σ : Type} [Source σ] {P : Moment → Prop} {s : σ}
    {l : List Moment} (h : (Cursor.idle s).Follows P l) : Source.moments s = l := by
  induction l generalizing s with
  | nil =>
    have hheld := h.held
    cases hstep : Source.produce s with
    | none => exact Source.moments_none hstep
    | some p => simp [Cursor.fill, hstep, Cursor.held] at hheld
  | cons m l ih =>
    have hheld := h.held
    have hdrop := h.drop
    cases hstep : Source.produce s with
    | none => simp [Cursor.fill, hstep, Cursor.held] at hheld
    | some p =>
      simp only [Cursor.fill, hstep, Cursor.held, List.head?_cons, Option.some.injEq] at hheld
      simp only [Cursor.fill, hstep, Cursor.drop, List.tail_cons] at hdrop
      rw [Source.moments_some (show Source.produce s = some (m, p.2) by rw [hstep, ← hheld]),
        ih hdrop]

/-! ### One line -/

namespace Line

/-- The instants of a line; a rule is expanded from the start. -/
def instants (start : Moment) (zone : Zone) (limits : Limits) : Line → List Moment
  | .rule r => Source.moments (RuleSource.of r start zone limits)
  | .dates list => list.dates

/-- Whether all that a line gives is in its range, and a rule passes safely. -/
def Sound (start : Moment) (offsets : List Int) : Line → Prop
  | .rule r => r.InRange ∧ r.PassesSafely start offsets
  | .dates list => ∀ m ∈ list.dates, m.Regular

variable {database : Database} {start : Moment} {zone : Zone} {limits : Limits}
  {offsets : List Int} {line : Line}

/-- **A line follows its instants**, in ascending order. -/
theorem follows_instants (hstart : start.Sought) (hz : zone.HasOffsets offsets)
    (hm : Zone.Moderate offsets)
    (hlimits : limits.maxYear - start.date.year + 2 ≤ limits.maxYearsBetweenInstances)
    (hline : line.Sound start offsets) :
    (∀ m ∈ line.instants start zone limits, m.Regular) ∧
      (Cursor.idle (LineSource.ofLine start zone limits line)).Follows Moment.Regular
        (DateSource.ofList (line.instants start zone limits)).dates := by
  obtain ⟨hasc, hmem⟩ := DateSource.ofList_spec (line.instants start zone limits)
  cases line with
  | rule rule =>
    obtain ⟨hr, hsafe⟩ := hline
    obtain ⟨hmoments, hfollows⟩ := RuleSource.follows_moments hr hstart hz hm hlimits hsafe
    rw [AscendingList.eq_of_mem_iff hasc hmoments hmem]
    exact ⟨fun m => RuleSource.regular_of_mem_moments hr hstart.valid hlimits,
      Cursor.embeds_inl.follows hfollows⟩
  | dates list => exact ⟨hline, Cursor.embeds_inr.follows (DateSource.follows _ _)⟩

/-- The lines of a text are sound when its rules pass safely. -/
theorem sound_of_readAllIn {text : String} {lines : List Line}
    (h : readAllIn database text zone = .ok lines)
    (hsafe : ∀ rule, .rule rule ∈ lines → rule.PassesSafely start offsets) :
    ∀ line ∈ lines, line.Sound start offsets := by
  rintro (rule | list) hline
  · exact ⟨inRange_of_readAllIn h hline, hsafe rule hline⟩
  · intro m hm
    obtain ⟨zone', written, utc, hwritten, rfl⟩ := exists_written h hline hm
    cases utc with
    | false => exact Zone.regular_localToUtc zone' hwritten.isValid
    | true => exact hwritten.isValid.regular

/-- Texts of the same lines are read as the same lines. -/
theorem exists_readAllIn_of_sameLines {text text' : String} {lines : List Line}
    (h : readAllIn database text zone = .ok lines) (hsame : Folding.SameLines text text') :
    ∃ lines', readAllIn database text' zone = .ok lines' ∧ ∀ line, line ∈ lines' ↔ line ∈ lines := by
  have hmem := mem_of_mapM h
  have hread : ∀ raw ∈ Folding.unfold text', ∃ line, readIn database raw zone = .ok line := by
    intro raw hraw
    exact exists_of_mem_mapM h ((hsame.mem_unfold raw).2 hraw)
  obtain ⟨lines', hlines'⟩ := exists_mapM hread
  refine ⟨lines', hlines', fun line => ?_⟩
  rw [mem_of_mapM hlines', hmem]
  simp only [hsame.mem_unfold]

end Line

/-! ### All lines -/

namespace RecurrenceSet

variable {database : Database} {start : Moment} {zone : Zone} {limits : Limits}
  {offsets : List Int} {lines : List Line}

/-- Whether a moment is in the set of some lines and their start. -/
def Has (lines : List Line) (start : Moment) (zone : Zone) (limits : Limits) (m : Moment) : Prop :=
  (m = zone.localToUtc start ∨
    ∃ line ∈ lines, line.effect = .includes ∧ m ∈ line.instants start zone limits) ∧
  ¬ ∃ line ∈ lines, line.effect = .excludes ∧ m ∈ line.instants start zone limits

theorem has_congr {lines' : List Line} (h : ∀ line, line ∈ lines' ↔ line ∈ lines) (m : Moment) :
    Has lines' start zone limits m ↔ Has lines start zone limits m := by
  simp only [Has, h]

/-- The instants of the lines that have an effect, those of each line in ascending
order. -/
def instantLists (effect : Effect) (lines : List Line) (start : Moment) (zone : Zone)
    (limits : Limits) : List (List Moment) :=
  (lines.filter (·.effect = effect)).map fun line =>
    (DateSource.ofList (line.instants start zone limits)).dates

theorem mem_instantLists (effect : Effect) (m : Moment) :
    (∃ k ∈ instantLists effect lines start zone limits, m ∈ k) ↔
      ∃ line ∈ lines, line.effect = effect ∧ m ∈ line.instants start zone limits := by
  simp [instantLists, (DateSource.ofList_spec _).2, and_assoc]

theorem ascending_instantLists (effect : Effect) :
    ∀ k ∈ instantLists effect lines start zone limits, k.Pairwise (· < ·) := by
  rw [instantLists, List.forall_mem_map]
  exact fun line _ => (DateSource.ofList_spec _).1

/-- The moments of a set in ascending order. -/
theorem exists_ascending_has (lines : List Line) (start : Moment) (zone : Zone)
    (limits : Limits) : ∃ l : List Moment, l.Pairwise (· < ·) ∧
      ∀ m, m ∈ l ↔ Has lines start zone limits m := by
  obtain ⟨l, hl, hmem⟩ := exists_ascending
    ((zone.localToUtc start :: (instantLists .includes lines start zone limits).flatten).filter
      fun m => ∀ k ∈ instantLists .excludes lines start zone limits, m ∉ k)
  refine ⟨l, hl, fun m => ?_⟩
  rw [hmem, List.mem_filter, List.mem_cons, List.mem_flatten, mem_instantLists, Has,
    ← mem_instantLists .excludes]
  simp

/-- The cursors of sound lines follow their instants, which lie near the calendar. -/
theorem follows_instantLists (hstart : start.Sought) (hz : zone.HasOffsets offsets)
    (hm : Zone.Moderate offsets)
    (hlimits : limits.maxYear - start.date.year + 2 ≤ limits.maxYearsBetweenInstances)
    (hlines : ∀ line ∈ lines, line.Sound start offsets) (effect : Effect) :
    List.Forall₂ (Cursor.Follows Moment.Regular) (cursors effect lines start zone limits)
        (instantLists effect lines start zone limits) ∧
      ∀ k ∈ instantLists effect lines start zone limits, ∀ m ∈ k, m.Regular := by
  have hline : ∀ line ∈ lines.filter (·.effect = effect), _ := fun line hmem =>
    Line.follows_instants hstart hz hm hlimits (hlines line (List.mem_of_mem_filter hmem))
  rw [cursors, instantLists, List.forall₂_map_left_iff, List.forall₂_map_right_iff,
    List.forall₂_same, List.forall_mem_map]
  exact ⟨fun line hmem => (hline line hmem).2, fun line hmem m hm' =>
    (hline line hmem).1 m (((DateSource.ofList_spec _).2 m).1 hm')⟩

/-- **Sound lines follow the ascending list of the moments of their set.** -/
theorem follows_of_has (hstart : start.Sought) (hz : zone.HasOffsets offsets)
    (hm : Zone.Moderate offsets)
    (hlimits : limits.maxYear - start.date.year + 2 ≤ limits.maxYearsBetweenInstances)
    (hlines : ∀ line ∈ lines, line.Sound start offsets) {l : List Moment}
    (hl : l.Pairwise (· < ·)) (hmem : ∀ m, m ∈ l ↔ Has lines start zone limits m) :
    (Cursor.idle (withStart lines start zone limits)).Follows Moment.Regular l := by
  obtain ⟨hins, hinsR⟩ := follows_instantLists hstart hz hm hlimits hlines .includes
  obtain ⟨hexs, -⟩ := follows_instantLists hstart hz hm hlimits hlines .excludes
  obtain ⟨hfirstA, hfirstM⟩ := DateSource.ofList_spec [zone.localToUtc start]
  have hfirst : (Cursor.idle (.inr (.ofList [zone.localToUtc start]) : LineSource)).Follows
      Moment.Regular (DateSource.ofList [zone.localToUtc start]).dates :=
    Cursor.embeds_inr.follows (DateSource.follows _ _)
  refine Union.follows (List.rel_append hins (List.Forall₂.cons hfirst List.Forall₂.nil)) hexs
    ?_ (ascending_instantLists .excludes) hl fun m => ?_
  · rw [List.forall_mem_append, List.forall_mem_singleton]
    refine ⟨fun k hk => ⟨ascending_instantLists .includes k hk, hinsR k hk⟩, hfirstA,
      fun m hm => ?_⟩
    rw [List.mem_singleton.1 ((hfirstM m).1 hm)]
    exact Zone.regular_localToUtc zone hstart.valid
  · rw [hmem, Has, ← mem_instantLists .includes, ← mem_instantLists .excludes,
      ← List.mem_singleton, ← hfirstM]
    simp only [List.mem_append, List.mem_singleton, or_and_right, exists_or, exists_eq_left,
      or_comm]

/-- Whether a text is read as a set that answers every sequence of questions, with
valid dates, as a list does, and that drains to the list. -/
def ReadsAs (database : Database) (text : String) (start : Moment) (zone : Zone)
    (limits : Limits) (l : List Moment) : Prop :=
  ∃ set, readIn database text start zone limits = .ok set ∧ Source.moments set = l ∧
    (Cursor.idle set).Follows Moment.IsValid l

/-- A text whose lines are sound is read as the moments of their set. -/
theorem readsAs_of_has {text : String} (hlines : Line.readAllIn database text zone = .ok lines)
    (hstart : start.Sought) (hz : zone.HasOffsets offsets) (hm : Zone.Moderate offsets)
    (hlimits : limits.maxYear - start.date.year + 2 ≤ limits.maxYearsBetweenInstances)
    (hsafe : ∀ rule, .rule rule ∈ lines → rule.PassesSafely start offsets) {l : List Moment}
    (hl : l.Pairwise (· < ·)) (hmem : ∀ m, m ∈ l ↔ Has lines start zone limits m) :
    ReadsAs database text start zone limits l := by
  have hfollows := follows_of_has hstart hz hm hlimits
    (Line.sound_of_readAllIn hlines hsafe) hl hmem
  refine ⟨withStart lines start zone limits, by rw [readIn, hlines]; rfl, hfollows.moments_eq, ?_⟩
  exact fun qs hqs => hfollows qs fun d hd => (hqs d hd).regular

/-- **A text is read as a set of moments.** A text whose rules pass safely is read as
the ascending list of the moments that are the start or an instant of an including
line, and no instant of an excluding one, and so is every text of the same lines, in
any order and number. -/
theorem exists_readsAs {text : String} (hlines : Line.readAllIn database text zone = .ok lines)
    (hstart : start.Sought) (hz : zone.HasOffsets offsets) (hm : Zone.Moderate offsets)
    (hlimits : limits.maxYear - start.date.year + 2 ≤ limits.maxYearsBetweenInstances)
    (hsafe : ∀ rule, .rule rule ∈ lines → rule.PassesSafely start offsets) :
    ∃ l : List Moment, l.Pairwise (· < ·) ∧ (∀ m, m ∈ l ↔ Has lines start zone limits m) ∧
      ReadsAs database text start zone limits l ∧
      ∀ text', Folding.SameLines text text' → ReadsAs database text' start zone limits l := by
  obtain ⟨l, hl, hmem⟩ := exists_ascending_has lines start zone limits
  refine ⟨l, hl, hmem, readsAs_of_has hlines hstart hz hm hlimits hsafe hl hmem,
    fun text' hsame => ?_⟩
  obtain ⟨lines', hlines', hsame'⟩ := Line.exists_readAllIn_of_sameLines hlines hsame
  exact readsAs_of_has hlines' hstart hz hm hlimits
    (fun rule hrule => hsafe rule ((hsame' _).1 hrule)) hl
    fun m => (hmem m).trans (has_congr hsame' m).symm

/-- Four days, without the second one, which is excluded on the clocks of New York. -/
def fourDaysButOne : List Line :=
  [.rule { Rule.every .daily with finish := .count 4 },
   .dates {
    effect := .excludes
    valueType := .dateTime
    zone := some ⟨"America/New_York", .newYork⟩
    dates := [.atTime 2007 3 11 6 30 0]
    periods := []
    parameters := ⟨[.zone "America/New_York"]⟩ }]

/-- The lines change places, one is repeated and a blank one is added. -/
theorem exists_readsAs_summerTime :
    let text := "RRULE:FREQ=DAILY;COUNT=4\nEXDATE;TZID=America/New_York:20070311T013000"
    let text' := "EXDATE;TZID=America/New_York:20070311T013000\n \n" ++
      "RRULE:FREQ=DAILY;COUNT=4\nEXDATE;TZID=America/New_York:20070311T013000"
    let start := Moment.atTime 2007 3 10 1 30 0
    ∃ l, Line.readAllIn .known text summerTime.zone = .ok fourDaysButOne ∧
      l.Pairwise (· < ·) ∧
      (∀ m, m ∈ l ↔ Has fourDaysButOne start summerTime.zone ⟨10, 2008⟩ m) ∧
      ReadsAs .known text start summerTime.zone ⟨10, 2008⟩ l ∧
      ReadsAs .known text' start summerTime.zone ⟨10, 2008⟩ l := by
  intro text text' start
  have hlines : (Line.readAllIn .known text summerTime.zone).toOption = some fourDaysButOne := by
    decide +kernel
  have hsafe : ∀ rule : Rule, .rule rule ∈ fourDaysButOne →
      rule.PassesSafely start summerTime.offsets := by
    simp [fourDaysButOne, Rule.PassesSafely]
  obtain ⟨l, hl, hmem, htext, hsame⟩ := @exists_readsAs .known start summerTime.zone ⟨10, 2008⟩
    _ _ _ (eq_ok_of_toOption hlines) ⟨by decide, by decide⟩ (.table summerTime)
    ⟨by decide, by decide⟩ (by decide) hsafe
  refine ⟨l, eq_ok_of_toOption hlines, hl, hmem, htext, hsame _ ?_⟩
  refine ⟨["RRULE:FREQ=DAILY;COUNT=4".toList,
      "EXDATE;TZID=America/New_York:20070311T013000".toList],
    ["EXDATE;TZID=America/New_York:20070311T013000".toList, [' '],
      "RRULE:FREQ=DAILY;COUNT=4".toList, "EXDATE;TZID=America/New_York:20070311T013000".toList],
    by decide, by decide, ?_, fun piece hpiece => ?_⟩
  · have hplain : ∀ c rest, Folding.isContinuation c = false → Folding.StandsAlone (c :: rest) :=
      fun c rest hc => Or.inl (by simp [Folding.continues_cons, hc])
    simp only [List.tail_cons, List.cons_append, List.nil_append, List.forall_mem_cons]
    exact ⟨hplain _ _ rfl, Or.inr ⟨List.forall_mem_singleton.2 rfl, by decide⟩, hplain _ _ rfl,
      hplain _ _ rfl, by simp⟩
  · have hblank : piece ≠ [' '] := fun he => hpiece (by rw [he]; decide)
    simp only [List.mem_cons, List.not_mem_nil, or_false, hblank, false_or]
    rw [or_left_comm, or_self]

/-- The line that excludes every other day. -/
def everyOtherDayExcluded : Line :=
  .rule { everyOtherDay with effect := .excludes }

/-- **An instant that a rule drops is not excluded.** Where the clocks skip a day, the
end of the day before is the first instant of a rule that starts there, but the rule
has dropped it when it is asked for the start, so the set has its start. -/
theorem not_has_skippedDay :
    let text := "EXRULE:FREQ=DAILY;INTERVAL=2"
    ((Moment.atTime 1993 8 20 24 0 0).Sought ∧ skippedDay.zone.HasOffsets skippedDay.offsets ∧
      Zone.Moderate skippedDay.offsets) ∧
    (∃ lines set, Line.readAllIn .known text skippedDay.zone = .ok lines ∧
      readIn .known text (.atTime 1993 8 20 24 0 0) skippedDay.zone ⟨10, 1994⟩ = .ok set ∧
      .atTime 1993 8 21 12 0 0 ∈ Source.moments set ∧
      ¬ Has lines (.atTime 1993 8 20 24 0 0) skippedDay.zone ⟨10, 1994⟩
        (.atTime 1993 8 21 12 0 0)) ∧
    ∃ lines set, Line.readAllIn .known text TransitionTable.apia.zone = .ok lines ∧
      readIn .known text (.atTime 2011 12 29 24 0 0) TransitionTable.apia.zone ⟨10, 2012⟩ =
        .ok set ∧
      .atTime 2011 12 30 10 0 0 ∈ Source.moments set ∧
      ¬ Has lines (.atTime 2011 12 29 24 0 0) TransitionTable.apia.zone ⟨10, 2012⟩
        (.atTime 2011 12 30 10 0 0) := by
  intro text
  have hexcluded {start m : Moment} {zone : Zone} {limits : Limits}
      (hm : m ∈ everyOtherDayExcluded.instants start zone limits) :
      ¬ Has [everyOtherDayExcluded] start zone limits m :=
    fun h => h.2 ⟨_, List.mem_singleton_self _, rfl, hm⟩
  have hskipped : (Line.readAllIn .known text skippedDay.zone).toOption =
      some [everyOtherDayExcluded] := by decide +kernel
  have hapia : (Line.readAllIn .known text TransitionTable.apia.zone).toOption =
      some [everyOtherDayExcluded] := by decide +kernel
  refine ⟨⟨⟨by decide, by decide⟩, .table skippedDay, by decide, by decide⟩, ?_, ?_⟩
  · exact ⟨_, _, eq_ok_of_toOption hskipped, readIn_of_readAllIn hskipped, by decide +kernel,
      hexcluded (by decide +kernel)⟩
  · exact ⟨_, _, eq_ok_of_toOption hapia, readIn_of_readAllIn hapia, by decide +kernel,
      hexcluded (by decide +kernel)⟩

end RecurrenceSet

end Recurrence
