/-
# Offsets and their transitions

A zone's offset from UTC, in seconds to the east, changes at given instants.
The table lists them in ascending order; a search tree over it finds the offset
in force at an instant without walking through the table.

Key definitions: `Transition`, `TransitionTable`, `TransitionTable.offsetAt`,
`OffsetTree`.
Key theorems: `OffsetTree.offsetAt_ofList`.
-/

namespace Recurrence

/-- An instant and the offset in force from then on. -/
structure Transition where
  start : Int
  offset : Int
  deriving DecidableEq

/-- The offset before the first transition, and the transitions. -/
structure TransitionTable where
  first : Int
  transitions : List Transition
  deriving DecidableEq

/-- The offset in force at an instant, where `offset` is in force before the
first of the transitions. -/
def offsetAfter (offset : Int) : List Transition → Int → Int
  | [], _ => offset
  | t :: rest, u => if u < t.start then offset else offsetAfter t.offset rest u

/-- The offset in force at an instant. -/
def TransitionTable.offsetAt (table : TransitionTable) (u : Int) : Int :=
  offsetAfter table.first table.transitions u

/-- Transitions ascend when each lies before all later ones. -/
def Ascending (transitions : List Transition) : Prop :=
  transitions.Pairwise fun a b => a.start < b.start

/-- A choice of offsets by instant. -/
inductive OffsetTree
  | constant (offset : Int)
  | change (start : Int) (before after : OffsetTree)

namespace OffsetTree

/-- The offset in force at an instant. -/
def offsetAt : OffsetTree → Int → Int
  | constant offset, _ => offset
  | change start before after, u => if u < start then before.offsetAt u else after.offsetAt u

/-- The tree of ascending transitions, split in the middle. -/
def ofList (offset : Int) (transitions : List Transition) : OffsetTree :=
  let half := transitions.length / 2
  match _cut : transitions.drop half with
  | [] => constant offset
  | t :: rest => change t.start (ofList offset (transitions.take half)) (ofList t.offset rest)
termination_by transitions.length
decreasing_by
  · have hlen := congrArg List.length _cut
    simp only [List.length_drop, List.length_cons] at hlen
    rw [List.length_take]
    omega
  · have hlen := congrArg List.length _cut
    simp only [List.length_drop, List.length_cons] at hlen
    omega

theorem offsetAfter_append (offset : Int) (l : List Transition) (t : Transition)
    (rest : List Transition) (h : Ascending (l ++ t :: rest)) (u : Int) :
    offsetAfter offset (l ++ t :: rest) u =
      if u < t.start then offsetAfter offset l u else offsetAfter t.offset rest u := by
  induction l generalizing offset with
  | nil => simp [offsetAfter]
  | cons a l ih =>
    have h' : Ascending (l ++ t :: rest) := (List.pairwise_cons.1 h).2
    have hts : a.start < t.start := (List.pairwise_cons.1 h).1 t (by simp)
    simp only [List.cons_append, offsetAfter, ih a.offset h']
    by_cases hut : u < a.start
    · have : u < t.start := by omega
      simp [hut, this]
    · simp [hut]

/-- **The tree finds the offset the table lists.** -/
theorem offsetAt_ofList (offset : Int) (transitions : List Transition)
    (h : Ascending transitions) (u : Int) :
    (ofList offset transitions).offsetAt u = offsetAfter offset transitions u := by
  fun_induction ofList offset transitions with
  | case1 offset transitions half hcut =>
    have : transitions = [] := by
      have hlen := congrArg List.length hcut
      simp only [List.length_drop, List.length_nil] at hlen
      exact List.length_eq_zero_iff.1 (by omega)
    simp [this, offsetAt, offsetAfter]
  | case2 offset transitions half t rest hcut ih1 ih2 =>
    have hsplit : transitions = transitions.take half ++ t :: rest := by
      rw [← hcut, List.take_append_drop]
    rw [hsplit] at h
    have hp := List.pairwise_append.1 h
    rw [offsetAt, ih1 hp.1, ih2 (List.pairwise_cons.1 hp.2.1).2]
    conv => rhs; rw [hsplit]
    rw [offsetAfter_append offset _ t rest h u]

end OffsetTree

end Recurrence
