/-
# Raising the threshold passes over candidates, and over nothing else

A search for candidates can be told at any time to pass over those before a stamp,
as often as one likes: to a stamp before an earlier one, in the middle of a period,
or behind the last candidate. What it answers is determined by the list that it hands
out when it is left alone (`Request.due`): each answer is the first candidate of that
list that comes after all that were handed out and lies before none of the
thresholds.

This holds of the walk through the cascade, of which each request leaves a part of
the list to come (`Cascade.Lists.answers`), and so of the loop over the generators,
whose finer fields may still stand in a period that was passed over
(`Chain.Follows.replies`).

Key definitions: `Request`, `Request.due`, `Cascade.answers`, `Chain.Replies`.
Key theorems: `Cascade.Lists.answers`, `Chain.Follows.replies`, `Rule.threshold_prunes`.
-/
import Recurrence.Proofs.Expansion.Candidates
import Recurrence.Proofs.Expansion.Search

namespace Recurrence

open Calendar

/-- What is asked of a search for candidates. -/
inductive Request
  /-- Its next candidate. -/
  | next
  /-- To pass over the candidates before a stamp. -/
  | raiseThreshold (threshold : Stamp)
  /-- To go on behind a candidate that became an instance. -/
  | instanceFound

/-! ### The answers of a list -/

namespace Request

/-- The candidates of a list that come after all that were handed out and lie before
none of the thresholds. -/
def left (candidates handed thresholds : List Stamp) : List Stamp :=
  candidates.filter fun b => (∀ a ∈ handed, a < b) ∧ ∀ t ∈ thresholds, t ≤ b

/-- The answers that are due to some requests, if a list of candidates is handed out
and some of them were handed out before: each is the first one left. -/
def due (candidates : List Stamp) :
    (handed thresholds : List Stamp) → List Request → List (Option Stamp)
  | _, _, [] => []
  | handed, thresholds, .next :: requests =>
    let answer := (left candidates handed thresholds).head?
    answer :: due candidates (answer.toList ++ handed) thresholds requests
  | handed, thresholds, .raiseThreshold t :: requests =>
    due candidates handed (t :: thresholds) requests
  | handed, thresholds, .instanceFound :: requests => due candidates handed thresholds requests

variable {candidates handed thresholds : List Stamp}

theorem left_nil (candidates : List Stamp) : left candidates [] [] = candidates := by
  simp [left]

/-- Behind the first candidate that is left the others are left. -/
theorem left_handed (h : candidates.Pairwise (· < ·)) :
    left candidates ((left candidates handed thresholds).head?.toList ++ handed) thresholds =
      (left candidates handed thresholds).tail := by
  cases hleft : left candidates handed thresholds with
  | nil => exact hleft
  | cons b rest =>
    have hascends : (b :: rest).Pairwise (· < ·) := hleft ▸ h.sublist List.filter_sublist
    have hlater : left candidates (b :: handed) thresholds =
        (left candidates handed thresholds).filter (b < ·) := by
      simp only [left, List.filter_filter, List.forall_mem_cons, ← Bool.decide_and, and_assoc]
    rw [List.head?_cons, Option.toList_some, List.singleton_append, hlater, hleft, List.tail_cons,
      List.filter_cons_of_neg (by simp), List.filter_eq_self]
    exact fun c hc => decide_eq_true ((List.pairwise_cons.1 hascends).1 c hc)

/-- A threshold leaves the candidates from it on. -/
theorem left_threshold (t : Stamp) :
    left candidates handed (t :: thresholds) =
      (left candidates handed thresholds).filter (t ≤ ·) := by
  simp only [left, List.filter_filter, List.forall_mem_cons, ← Bool.decide_and]
  exact List.filter_congr fun b _ => decide_eq_decide.2 and_left_comm

end Request

/-! ### The answers of a walk -/

namespace Cascade

/-- The answers of a walk to some requests. -/
def answers : List Request → Cascade → List (Option Stamp)
  | [], _ => []
  | .next :: requests, c => c.next.1 :: answers requests c.next.2
  | .raiseThreshold t :: requests, c => answers requests (c.raiseThreshold t)
  | .instanceFound :: requests, c => answers requests c.instanceFound

/-- **A walk answers as its list does**, whatever it was asked before. -/
theorem Lists.answers {c : Cascade} {candidates handed thresholds : List Stamp}
    (hascends : candidates.Pairwise (· < ·))
    (h : c.Lists (Request.left candidates handed thresholds)) (requests : List Request) :
    c.answers requests = Request.due candidates handed thresholds requests := by
  induction requests generalizing c handed thresholds with
  | nil => rfl
  | cons request requests ih =>
    cases request with
    | next =>
      obtain ⟨hanswer, hbehind⟩ := h.next
      rw [← Request.left_handed hascends] at hbehind
      rw [Cascade.answers, Request.due, hanswer, ih hbehind]
    | raiseThreshold t =>
      have hraised := h.raiseThreshold t
      rw [← Request.left_threshold] at hraised
      exact ih hraised
    | instanceFound => exact ih h.instanceFound

end Cascade

/-! ### The replies of the loop -/

namespace Chain

/-- Whether a chain gives some answers to some requests, every call for a candidate
returning. -/
inductive Replies : Chain → List Request → List (Option Stamp) → Prop
  | nil (c : Chain) : Replies c [] []
  | next {c c' : Chain} {answer : Option Stamp} {requests : List Request}
    {answers : List (Option Stamp)} (hcall : c.Returns (answer, c'))
    (hrest : Replies c' requests answers) : Replies c (.next :: requests) (answer :: answers)
  | raiseThreshold {c : Chain} {t : Stamp} {requests : List Request}
    {answers : List (Option Stamp)} (hrest : Replies (c.raiseThreshold t) requests answers) :
    Replies c (.raiseThreshold t :: requests) answers
  | instanceFound {c : Chain} {requests : List Request} {answers : List (Option Stamp)}
    (hrest : Replies c.instanceFound requests answers) :
    Replies c (.instanceFound :: requests) answers

variable {c : Chain}

/-- A chain gives one sequence of answers. -/
theorem Replies.unique {requests : List Request} {answers answers' : List (Option Stamp)}
    (h : c.Replies requests answers) (h' : c.Replies requests answers') : answers = answers' := by
  induction h generalizing answers' with
  | nil =>
    cases h'
    rfl
  | next hcall _ ih =>
    cases h' with
    | next hcall' hrest' =>
      obtain ⟨rfl, rfl⟩ := Prod.mk.inj (hcall.unique hcall')
      rw [ih hrest']
  | raiseThreshold _ ih =>
    cases h' with
    | raiseThreshold hrest' => exact ih hrest'
  | instanceFound _ ih =>
    cases h' with
    | instanceFound hrest' => exact ih hrest'

/-- **A chain replies as the walk answers that it follows.** -/
theorem Follows.replies {k : Cascade} (h : c.Follows k) (requests : List Request) :
    c.Replies requests (k.answers requests) := by
  induction requests generalizing c k with
  | nil => exact .nil c
  | cons request requests ih =>
    cases request with
    | next =>
      obtain ⟨c', hreturns, hfollows⟩ := h.returns
      exact .next hreturns (ih hfollows)
    | raiseThreshold t => exact .raiseThreshold (ih (h.raiseThreshold t))
    | instanceFound => exact .instanceFound (ih h.instanceFound)

end Chain

/-! ### Rules without positions -/

namespace Rule

variable {start : Moment} {limits : Limits}

/-- **Raising the threshold prunes and does nothing else.** Left alone, the search of
a rule without positions hands out a list of candidates in ascending order. Whatever
it is asked, and in whichever order, its walk and the loop over its generators answer
with the first candidate of that list that was not passed yet and lies before none of
the thresholds so far, or with none when there is none. -/
theorem threshold_prunes (rule : Rule) (hpos : rule.bySetPos = [])
    (hd : start.date.inCalendar = true)
    (hlimits : limits.maxYear - start.date.year + 2 ≤ limits.maxYearsBetweenInstances) :
    ∃ candidates : List Stamp, candidates.Pairwise (· < ·) ∧
      (∀ n, (rule.candidates start limits).nth n = candidates[n]?) ∧
      ∀ requests : List Request,
        (rule.candidates start limits).cascade.answers requests =
            Request.due candidates [] [] requests ∧
          ∀ answers, (Chain.of rule start limits).Replies requests answers ↔
            answers = Request.due candidates [] [] requests := by
  refine ⟨_, rule.pairwise_handedOut start limits, (rule.lists_handedOut hd hlimits).nth,
    fun requests => ?_⟩
  have hlists : (rule.candidates start limits).cascade.Lists
      (Request.left (rule.handedOut start limits) [] []) := by
    rw [Request.left_nil, handedOut, if_pos hpos]
    exact rule.cascade_lists hd hlimits
  have hanswers := hlists.answers (rule.pairwise_handedOut start limits) requests
  have hreplies := (Chain.follows_of rule start limits).replies requests
  rw [hanswers] at hreplies
  refine ⟨hanswers, fun answers => ⟨fun h => h.unique hreplies, ?_⟩⟩
  rintro rfl
  exact hreplies

/-- The last Sundays of April: after the first one the threshold is raised into the
middle of the next day that has any, then to an earlier stamp, and in the end behind
the last candidate. -/
theorem threshold_prunes_lastSundays :
    (lastSundays.bySetPos = [] ∧ (⟨2005, 4, 24⟩ : Date).inCalendar = true ∧
        (2009 : Int) - 2005 + 2 ≤ 6) ∧
      (Chain.of lastSundays (.atTime 2005 4 24 9 15 0) ⟨6, 2009⟩).Replies
        [.next, .raiseThreshold ⟨2007, 4, 29, 9, 15, 0⟩, .raiseThreshold ⟨2006, 1, 1, 0, 0, 0⟩,
          .next, .next, .raiseThreshold ⟨2009, 13, 0, 0, 0, 99⟩, .next, .next]
        [some ⟨2005, 4, 24, 9, 30, 0⟩, some ⟨2007, 4, 29, 9, 30, 0⟩,
          some ⟨2009, 4, 26, 9, 0, 0⟩, none, none] := by
  have hdate : (⟨2005, 4, 24⟩ : Date).inCalendar = true := by decide
  have hlimits : (2009 : Int) - 2005 + 2 ≤ 6 := by decide
  obtain ⟨candidates, -, -, h⟩ :=
    @threshold_prunes (.atTime 2005 4 24 9 15 0) ⟨6, 2009⟩ lastSundays rfl hdate hlimits
  obtain ⟨hanswers, hreplies⟩ := h
    [.next, .raiseThreshold ⟨2007, 4, 29, 9, 15, 0⟩, .raiseThreshold ⟨2006, 1, 1, 0, 0, 0⟩,
      .next, .next, .raiseThreshold ⟨2009, 13, 0, 0, 0, 99⟩, .next, .next]
  refine ⟨⟨rfl, hdate, hlimits⟩, (hreplies _).2 ?_⟩
  rw [← hanswers]
  decide +kernel

end Rule

end Recurrence
