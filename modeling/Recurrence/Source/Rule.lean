/-
# Rules as sources

The candidates of a rule lie on the clocks of its zone; its instants are their
conversions to UTC, from the converted start on. A candidate whose instant is
not after the one before it is left out. A bound ends the rule at the first
candidate past it, a count after so many instants.

To seek a date, a rule whose end and positions do not depend on what comes
before raises the threshold of its cascade to the day before.

Key definitions: `RuleSource`, `RuleSource.of`, `RuleSource.produce`, `RuleSource.seek`.
-/
import Recurrence.Expansion.Plan
import Recurrence.Source.Basic
import Recurrence.Zone.Basic

namespace Recurrence

/-- A rule being expanded. -/
structure RuleSource where
  candidates : Candidates
  zone : Zone
  /-- Whether the instants are dates without times. -/
  dateOnly : Bool
  /-- The start in UTC. -/
  start : Moment
  /-- The last candidate that may be an instance, on the clocks of the zone. -/
  bound : Option Moment
  /-- How many instants may follow. -/
  remaining : Option Nat
  /-- The instant before. -/
  last : Option Moment

namespace RuleSource

/-- The expansion of a rule from a start on the clocks of a zone. -/
def of (rule : Rule) (start : Moment) (zone : Zone) (limits : Limits) : RuleSource where
  candidates := rule.candidates start limits
  zone
  dateOnly := !start.hasTime
  start := zone.localToUtc start
  bound :=
    match rule.finish with
    | .untilLocal bound => some bound
    | .untilUtc bound => some (zone.utcToLocal bound)
    | _ => none
  remaining :=
    match rule.finish with
    | .count n => some n
    | _ => none
  last := none

/-- Whether a candidate lies past the bound. -/
def isPast (s : RuleSource) (candidate : Moment) : Bool :=
  s.bound.any fun bound => !candidate.withinBound bound

/-- Whether an instant comes neither before the start nor at or before the
instant before it. -/
def isNew (s : RuleSource) (instant : Moment) : Bool :=
  !(instant < s.start) && !s.last.any fun last => instant ≤ last

/-- The next instant among the candidates, and the state behind it. -/
def produceFrom (s : RuleSource) (candidates : Candidates) : Option (Moment × RuleSource) :=
  match _step : candidates.next with
  | (none, _) => none
  | (some stamp, candidates') =>
    let candidate := stamp.toMoment s.dateOnly
    if s.isPast candidate then none
    else
      let instant := s.zone.localToUtc candidate
      if s.isNew instant then
        match s.remaining.map takeOne with
        | some (false, _) => none
        | left =>
          some (instant,
            { s with
              candidates := candidates'.instanceFound
              remaining := left.map Prod.snd
              last := some instant })
      else s.produceFrom candidates'
termination_by candidates.size
decreasing_by exact Candidates.size_of_next _step

/-- The next instant, and the state behind it. -/
def produce (s : RuleSource) : Option (Moment × RuleSource) :=
  s.produceFrom s.candidates

/-- A bound on the number of instants to come. -/
def size (s : RuleSource) : Nat :=
  s.candidates.size

theorem size_instanceFound (c : Candidates) : c.instanceFound.size = c.size := rfl

theorem size_produceFrom {s s' : RuleSource} {candidates : Candidates} {m : Moment}
    (h : s.produceFrom candidates = some (m, s')) : s'.size < candidates.size := by
  fun_induction produceFrom s candidates with
  | case1 => simp at h
  | case2 => simp at h
  | case3 => simp at h
  | case4 c stamp c' hstep candidate hpast instant hnew hleft =>
    simp only [Option.some.injEq, Prod.mk.injEq] at h
    rw [← h.2, size, size_instanceFound]
    exact Candidates.size_of_next hstep
  | case5 c stamp c' hstep candidate hpast instant hnew ih =>
    exact Nat.lt_trans (ih h) (Candidates.size_of_next hstep)

theorem size_produce {s s' : RuleSource} {m : Moment} (h : s.produce = some (m, s')) :
    s'.size < s.size :=
  size_produceFrom h

/-- The cursor at the first instant that is not before a date. -/
def skip (date : Moment) (s : RuleSource) : Cursor RuleSource :=
  match _step : s.produce with
  | none => .ended
  | some (m, s') => if m < date then skip date s' else .holding m s'
termination_by s.size
decreasing_by exact size_produce _step

/-- The state that passes over the candidates before a date, as far as neither
the count nor positions need them. A zone is at most a day away from UTC, so
candidates from the day before the date on are kept. -/
def prune (date : Moment) (s : RuleSource) : RuleSource :=
  if s.remaining.isNone && !s.candidates.isSelective then
    let dayBefore := (s.zone.utcToLocal date).date.addDays (-1)
    { s with candidates := s.candidates.raiseThreshold (.ofDate dayBefore) }
  else s

/-- The cursor at the first instant that is not before a date. -/
def seek (date : Moment) (s : RuleSource) : Cursor RuleSource :=
  (s.prune date).skip date

instance : Source RuleSource where
  produce := produce
  seek := seek
  size := size
  size_produce := size_produce

end RuleSource

end Recurrence
