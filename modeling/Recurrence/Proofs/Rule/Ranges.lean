/-
# Rules within their ranges

Every part of a rule that is read has a range: an interval and a count begin at
1, an entry of a list lies within what its field can hold, and entries that
count from the end are as far from 0 as those that count from the beginning.

Key definitions: `Rule.InRange`.
-/
import Recurrence.Rule.Read

namespace Recurrence

namespace Rule

/-- Whether every field of a rule lies in the range that a rule is read
with. -/
structure InRange (rule : Rule) : Prop where
  interval : 1 ≤ rule.interval ∧ rule.interval ≤ UInt32.size - 1
  count : ∀ n, rule.finish = .count n → 1 ≤ n ∧ n ≤ UInt32.size - 1
  byDay : ∀ entry ∈ rule.byDay, -53 ≤ entry.number ∧ entry.number ≤ 53
  byMonth : ∀ n ∈ rule.byMonth, 1 ≤ n ∧ n ≤ 12
  byMonthDay : ∀ n ∈ rule.byMonthDay, 1 ≤ n.natAbs ∧ n.natAbs ≤ 31
  byWeekNo : ∀ n ∈ rule.byWeekNo, 1 ≤ n.natAbs ∧ n.natAbs ≤ 53
  byYearDay : ∀ n ∈ rule.byYearDay, 1 ≤ n.natAbs ∧ n.natAbs ≤ 366
  byHour : ∀ n ∈ rule.byHour, n ≤ 23
  byMinute : ∀ n ∈ rule.byMinute, n ≤ 59
  bySecond : ∀ n ∈ rule.bySecond, n ≤ 60
  bySetPos : ∀ n ∈ rule.bySetPos, 1 ≤ n.natAbs ∧ n.natAbs ≤ 366

end Rule

end Recurrence
