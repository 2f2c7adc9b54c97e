/-
# Selection by position

A rule may pick among all candidates of a period of its frequency by their
positions, counted from 1, or from the end if negative. The candidates of one
period are gathered first, which takes one candidate of the next period; that
one waits for its turn.

Key definitions: `atPositions`, `Candidates`, `Candidates.next`.
Key theorems: `Candidates.size_of_next`.
-/
import Recurrence.Expansion.Cascade

namespace Recurrence

/-- The members of a list at the given positions, in the order of the list.
Positions that the list does not have are ignored. -/
def atPositions {α : Type} (positions : List Int) (members : List α) : List α :=
  members.zipIdx.filterMap fun (member, i) =>
    if positions.any fun p => p == (i : Int) + 1 || p == (i : Int) - members.length then
      some member
    else none

/-- A selection by position, the candidate that was taken from the next
period, and the candidates that were selected but not handed out. -/
structure PeriodSelection where
  positions : List Int
  frequency : Frequency
  weekStart : Weekday
  waiting : Option Stamp
  selected : List Stamp

/-- The candidates of a rule, after any selection by position. -/
structure Candidates where
  cascade : Cascade
  selection : Option PeriodSelection

namespace PeriodSelection

/-- The candidates of the period that begins at `start`, up to the first one of
another period. `taken` are the ones before, the latest first. -/
def gather (sel : PeriodSelection) (start : Stamp) (taken : List Stamp) (c : Cascade) :
    List Stamp × Option Stamp × Cascade :=
  match _step : c.next with
  | (some s, c') =>
    if s.periodStart sel.frequency sel.weekStart = start then sel.gather start (s :: taken) c'
    else (taken.reverse, some s, c')
  | (none, c') => (taken.reverse, none, c')
termination_by c.size
decreasing_by
  have := Cascade.size_of_next _step
  omega

/-- How many candidates a selection and its walk have still to handle. -/
def load (waiting : Option Stamp) (c : Cascade) : Nat :=
  waiting.toList.length + c.size

/-- The walk that is over has nothing more to visit than before. -/
theorem size_finished (c : Cascade) : ({ c with finished := true } : Cascade).size = c.size := rfl

theorem size_of_next_none {c c' : Cascade} (h : c.next = (none, c')) : c'.size = c.size := by
  unfold Cascade.next at h
  split at h
  · simp at h
  · simp only [Prod.mk.injEq, true_and] at h
    rw [← h, size_finished]

theorem load_gather (sel : PeriodSelection) (start : Stamp) (taken : List Stamp) (c : Cascade) :
    (sel.gather start taken c).1.length +
        load (sel.gather start taken c).2.1 (sel.gather start taken c).2.2 =
      taken.length + c.size := by
  fun_induction gather sel start taken c with
  | case1 taken c s c' hstep hperiod ih =>
    have := Cascade.size_of_next hstep
    simp only [List.length_cons] at ih
    omega
  | case2 taken c s c' hstep hperiod =>
    have := Cascade.size_of_next hstep
    simp only [load, List.length_reverse, Option.toList_some, List.length_singleton]
    omega
  | case3 taken c c' hstep =>
    have := size_of_next_none hstep
    simp [load, this]

/-- Nothing that was taken is lost. -/
theorem length_le_gather (sel : PeriodSelection) (start : Stamp) (taken : List Stamp)
    (c : Cascade) : taken.length ≤ (sel.gather start taken c).1.length := by
  fun_induction gather sel start taken c with
  | case1 taken c s c' hstep hperiod ih =>
    simp only [List.length_cons] at ih
    omega
  | case2 => simp
  | case3 => simp

/-- The first candidate of the next period. -/
def first (sel : PeriodSelection) (c : Cascade) : Option Stamp × Cascade :=
  match sel.waiting with
  | some s => (some s, c)
  | none => c.next

theorem load_first {sel : PeriodSelection} {c c' : Cascade} {s : Stamp}
    (h : sel.first c = (some s, c')) : load sel.waiting c = c'.size + 1 := by
  unfold first at h
  split at h
  · rename_i heq
    simp only [Prod.mk.injEq, Option.some.injEq] at h
    simp [load, heq, ← h.2]
    omega
  · rename_i heq
    have := Cascade.size_of_next h
    simp [load, heq, this]

/-- The next selected candidate. -/
def next (sel : PeriodSelection) (c : Cascade) : Option Stamp × PeriodSelection × Cascade :=
  match sel.selected with
  | s :: selected => (some s, { sel with selected }, c)
  | [] =>
    match _step : sel.first c with
    | (none, c) => (none, sel, c)
    | (some s, c) =>
      let start := s.periodStart sel.frequency sel.weekStart
      let members := sel.gather start [s] c
      next
        { sel with waiting := members.2.1, selected := atPositions sel.positions members.1 }
        members.2.2
termination_by (load sel.waiting c, sel.selected.length)
decreasing_by
  have h1 := load_first _step
  have h2 := load_gather sel (s.periodStart sel.frequency sel.weekStart) [s] c
  have h3 := length_le_gather sel (s.periodStart sel.frequency sel.weekStart) [s] c
  simp only [List.length_singleton] at h2 h3
  apply Prod.Lex.left
  omega

/-- How many candidates are left, those not handed out included. -/
def size (sel : PeriodSelection) (c : Cascade) : Nat :=
  sel.selected.length + load sel.waiting c

theorem length_atPositions_le {α : Type} (positions : List Int) (members : List α) :
    (atPositions positions members).length ≤ members.length := by
  have := List.length_filterMap_le (fun (member, i) =>
    if positions.any fun p => p == ((i : Nat) : Int) + 1 || p == (i : Int) - members.length then
      some member
    else none) members.zipIdx
  simpa [atPositions] using this

theorem size_of_next {sel sel' : PeriodSelection} {c c' : Cascade} {s : Stamp}
    (h : sel.next c = (some s, sel', c')) : sel'.size c' < sel.size c := by
  fun_induction next sel c with
  | case1 sel c s' selected hsel =>
    simp only [Prod.mk.injEq] at h
    obtain ⟨_, rfl, rfl⟩ := h
    simp [size, hsel]
  | case2 => simp at h
  | case3 sel c hsel s' c1 hstep start members ih =>
    have h1 := load_first hstep
    have h2 : members.1.length + load members.2.1 members.2.2 = 1 + c1.size :=
      load_gather sel start [s'] c1
    have h3 := length_atPositions_le sel.positions members.1
    have h4 := ih h
    simp only [size] at h4 ⊢
    omega

end PeriodSelection

namespace Candidates

/-- The next candidate. -/
def next (c : Candidates) : Option Stamp × Candidates :=
  match c.selection with
  | none =>
    let (s, cascade) := c.cascade.next
    (s, { c with cascade })
  | some sel =>
    let (s, sel, cascade) := sel.next c.cascade
    (s, ⟨cascade, some sel⟩)

/-- Whether candidates are selected by position. -/
def isSelective (c : Candidates) : Bool :=
  c.selection.isSome

/-- Passes over all candidates before a stamp that are not gathered yet. -/
def raiseThreshold (c : Candidates) (threshold : Stamp) : Candidates :=
  { c with cascade := c.cascade.raiseThreshold threshold }

/-- The candidates after one of them became an instance. -/
def instanceFound (c : Candidates) : Candidates :=
  { c with cascade := c.cascade.instanceFound }

/-- How many candidates there may be left. -/
def size (c : Candidates) : Nat :=
  match c.selection with
  | none => c.cascade.size
  | some sel => sel.size c.cascade

theorem size_of_next {c c' : Candidates} {s : Stamp} (h : c.next = (some s, c')) :
    c'.size < c.size := by
  unfold next at h
  split at h
  · rename_i hsel
    simp only [Prod.mk.injEq] at h
    have := Cascade.size_of_next (c := c.cascade) (Prod.ext h.1 rfl)
    rw [← h.2]
    simp [size, hsel, this]
  · rename_i sel hsel
    simp only [Prod.mk.injEq] at h
    have hnext : sel.next c.cascade = (some s, (sel.next c.cascade).2) := Prod.ext h.1 rfl
    have := PeriodSelection.size_of_next hnext
    rw [← h.2]
    simpa [size, hsel] using this

end Candidates

end Recurrence
