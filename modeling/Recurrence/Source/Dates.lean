/-
# Lists of dates as sources

Key definitions: `DateSource`, `DateSource.ofList`, `DateSource.read`.
-/
import Recurrence.Moment.Read
import Recurrence.Source.Basic
import Recurrence.Text.Split

namespace Recurrence

/-- Moments in ascending order, each once. -/
structure DateSource where
  dates : List Moment

namespace DateSource

/-- Leaves of equal neighbours only the first. -/
def dedup : List Moment → List Moment
  | a :: b :: rest => if a = b then dedup (b :: rest) else a :: dedup (b :: rest)
  | ms => ms

/-- The moments of a list in ascending order, each once. -/
def ofList (ms : List Moment) : DateSource :=
  ⟨dedup (ms.mergeSort fun a b => a ≤ b)⟩

/-- The moments of a list separated by commas. -/
def read (text : String) : Except Fault DateSource :=
  ((Text.splitAt ',' text).mapM Moment.read).map ofList

instance : Source DateSource where
  produce
    | ⟨[]⟩ => none
    | ⟨m :: rest⟩ => some (m, ⟨rest⟩)
  seek date s := .idle ⟨s.dates.dropWhile (· < date)⟩
  size s := s.dates.length
  size_produce := by
    intro s s' m h
    split at h
    · simp at h
    · simp only [Option.some.injEq, Prod.mk.injEq] at h
      simp [← h.2]

end DateSource

end Recurrence
