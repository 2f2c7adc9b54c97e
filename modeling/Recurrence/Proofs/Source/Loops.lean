/-
# Every expansion ends

What is built on the search for the next candidate are loops again: one gathers
the candidates of a period, one goes on to the next period until a position is
there, one passes over the candidates that are no instants, one over the
instants before a date, and one over the moments of a union that came already
or are excluded. Each of them ends in every state, whatever the rule, the start,
the zone and the limits are: a pass takes something from what is left to come,
so there is at most one pass more than there is to take.

What the loops ask for a next candidate is a chain of generators in a state that
the rule's chain can reach, so each of those calls returns as well.

Key definitions: `PeriodSelection.gatherPass`, `PeriodSelection.pass`,
`RuleSource.pass`, `Cursor.pass`, `Union.pass`, `Cascade.Driven`,
`RuleSource.AlwaysEnds`.
Key theorems: `Cascade.Kept.confines`, `RuleSource.alwaysEnds`.
-/
import Recurrence.Proofs.Expansion.Search
import Recurrence.Proofs.Source.Draws
import Recurrence.Source.Union

namespace Recurrence

/-! ### Candidates by position -/

namespace PeriodSelection

/-- A pass of gathering the candidates of the period that begins at `start`. -/
def gatherPass (sel : PeriodSelection) (start : Stamp) :
    List Stamp × Cascade → Pass (List Stamp × Cascade) (List Stamp × Option Stamp × Cascade)
  | (taken, c) =>
    match c.next with
    | (some s, c) =>
      if s.periodStart sel.frequency sel.weekStart = start then .again (s :: taken, c)
      else .done (taken.reverse, some s, c)
    | (none, c) => .done (taken.reverse, none, c)

/-- A pass of looking for the next selected candidate: it is handed out if there
is one, or else selected among the candidates of the next period. -/
def pass : PeriodSelection × Cascade →
    Pass (PeriodSelection × Cascade) (Option Stamp × PeriodSelection × Cascade)
  | (sel, c) =>
    match sel.selected with
    | s :: selected => .done (some s, { sel with selected }, c)
    | [] =>
      match sel.first c with
      | (none, c) => .done (none, sel, c)
      | (some s, c) =>
        let members := sel.gather (s.periodStart sel.frequency sel.weekStart) [s] c
        .again
          ({ sel with
              waiting := members.2.1
              selected := atPositions sel.positions members.1 },
            members.2.2)

/-- **Gathering a period ends**: every pass but the last one takes a candidate. -/
theorem gather_ends (sel : PeriodSelection) (start : Stamp) (taken : List Stamp) (c : Cascade) :
    Pass.EndsWithin (sel.gatherPass start) (c.size + 1) (.again (taken, c))
      (sel.gather start taken c) := by
  fun_induction gather sel start taken c with
  | case1 taken c s c' hstep hperiod ih =>
    rw [Cascade.size_of_next hstep]
    exact .next (by simp only [gatherPass, hstep, if_pos hperiod]) ih
  | case2 taken c s c' hstep hperiod =>
    exact .next (by simp only [gatherPass, hstep, if_neg hperiod]) (.done _ _)
  | case3 taken c c' hstep =>
    exact .next (by simp only [gatherPass, hstep]) (.done _ _)

/-- **Looking for a selected candidate ends**, also when the positions select
nothing: every pass but the last one uses up a period. -/
theorem next_ends (sel : PeriodSelection) (c : Cascade) :
    Pass.EndsWithin pass (load sel.waiting c + 1) (.again (sel, c)) (sel.next c) := by
  fun_induction next sel c with
  | case1 sel c s selected hsel =>
    exact .next (by simp only [pass, hsel]) (.done _ _)
  | case2 sel c hsel c' hstep =>
    exact .next (by simp only [pass, hsel, hstep]) (.done _ _)
  | case3 sel c hsel s c' hstep start members ih =>
    have hload : load members.2.1 members.2.2 + 1 ≤ load sel.waiting c := by
      have hfirst := load_first hstep
      have hgather : members.1.length + load members.2.1 members.2.2 = 1 + c'.size :=
        load_gather sel start [s] c'
      have hmember : 1 ≤ members.1.length := length_le_gather sel start [s] c'
      omega
    exact .next (by simp only [pass, hsel, hstep]; rfl) (ih.mono hload)

end PeriodSelection

/-! ### Rules -/

namespace RuleSource

/-- A pass of looking for the next instant: a candidate is taken, and is the
instant, is passed over, or ends the rule. -/
def pass (s : RuleSource) (candidates : Candidates) :
    Pass Candidates (Option (Moment × RuleSource)) :=
  match candidates.next with
  | (none, _) => .done none
  | (some stamp, candidates) =>
    let candidate := stamp.toMoment s.dateOnly
    if s.isPast candidate then .done none
    else
      let instant := s.zone.localToUtc candidate
      if s.isNew instant then
        match s.remaining.map takeOne with
        | some (false, _) => .done none
        | left =>
          .done (some (instant,
            { s with
              candidates := candidates.instanceFound
              remaining := left.map Prod.snd
              last := some instant }))
      else .again candidates

theorem produceFrom_ends (s : RuleSource) (candidates : Candidates) :
    Pass.EndsWithin s.pass (candidates.size + 1) (.again candidates)
      (s.produceFrom candidates) := by
  fun_induction produceFrom s candidates with
  | case1 c c' hstep =>
    exact .next (by simp only [pass, hstep]) (.done _ _)
  | case2 c stamp c' hstep candidate hpast =>
    exact .next (by simp only [pass, hstep]; exact if_pos hpast) (.done _ _)
  | case3 c stamp c' hstep candidate hpast instant hnew n hleft =>
    refine .next ?_ (.done _ _)
    simp only [pass, hstep]
    rw [if_neg hpast, if_pos hnew, hleft]
  | case4 c stamp c' hstep candidate hpast instant hnew hleft =>
    refine .next ?_ (.done _ _)
    simp only [pass, hstep]
    rw [if_neg hpast, if_pos hnew]
  | case5 c stamp c' hstep candidate hpast instant hnew ih =>
    refine .next ?_ (ih.mono (Candidates.size_of_next hstep))
    simp only [pass, hstep]
    rw [if_neg hpast, if_neg hnew]

/-- **Looking for the next instant ends**, also when no candidate is one: every pass
takes a candidate. -/
theorem produce_ends (s : RuleSource) :
    Pass.EndsWithin s.pass (s.size + 1) (.again s.candidates) s.produce :=
  s.produceFrom_ends s.candidates

/-- Passing over candidates makes no source larger. -/
theorem size_prune_le (s : RuleSource) (date : Moment) : (s.prune date).size ≤ s.size := by
  unfold prune
  split
  · rename_i hprunes
    have hselection : s.candidates.selection = none := by
      simpa [Candidates.isSelective] using (Bool.and_eq_true_iff.1 hprunes).2
    simp only [size, Candidates.size, Candidates.raiseThreshold, hselection]
    exact (s.candidates.cascade.pending_raiseThreshold _).length_le
  · exact Nat.le_refl _

end RuleSource

/-- A pass of passing over the moments before a date: the next moment is looked at,
and dropped if it is one of them. -/
def Cursor.pass {σ : Type} [Source σ] (date : Moment) (c : Cursor σ) :
    Pass (Cursor σ) (Cursor σ) :=
  match c.fill.held with
  | none => .done c.fill
  | some m => if m < date then .again c.fill.drop else .done c.fill

namespace RuleSource

/-- What is to be done to pass over the moments before a date: nothing, if there
are no more moments or one from there on is held, or else a loop from the state
that passes over candidates. -/
def seeks (date : Moment) (c : Cursor RuleSource) : Pass (Cursor RuleSource) (Cursor RuleSource) :=
  match c with
  | .ended => .done .ended
  | .holding m s => if m < date then .again (.idle (s.prune date)) else .done c
  | .idle s => .again (.idle (s.prune date))

theorem skip_ends (date : Moment) (s : RuleSource) :
    Pass.EndsWithin (Cursor.pass date) (s.size + 1) (.again (.idle s)) (s.skip date) := by
  fun_induction skip date s with
  | case1 s hstep =>
    refine .next ?_ (.done _ _)
    simp only [Cursor.pass, Cursor.fill, Source.produce, hstep, Cursor.held]
  | case2 s m s' hstep hlt ih =>
    refine .next ?_ (ih.mono (size_produce hstep))
    simp only [Cursor.pass, Cursor.fill, Source.produce, hstep, Cursor.held, if_pos hlt,
      Cursor.drop]
  | case3 s m s' hstep hge =>
    refine .next ?_ (.done _ _)
    simp only [Cursor.pass, Cursor.fill, Source.produce, hstep, Cursor.held, if_neg hge]

/-- **Passing over the instants before a date ends**, also when there is none from
there on: every pass but the last one drops an instant. -/
theorem advanceTo_ends (date : Moment) (c : Cursor RuleSource) :
    Pass.EndsWithin (Cursor.pass date) (c.size + 1) (seeks date c) (c.advanceTo date) := by
  cases c with
  | idle s => exact (skip_ends date (s.prune date)).mono (Nat.succ_le_succ (s.size_prune_le date))
  | holding m s =>
    simp only [seeks, Cursor.advanceTo]
    split
    · refine (skip_ends date (s.prune date)).mono (Nat.succ_le_succ ?_)
      exact (s.size_prune_le date).trans (Nat.le_succ _)
    · exact .done _ _
  | ended => exact .done _ _

end RuleSource

/-! ### Unions -/

namespace Union

variable {σ : Type} [Source σ]

/-- A pass of looking for the next moment of a union: the least one is taken, and
passed over if it came already or is excluded. -/
def pass : List (Cursor σ) × List (Cursor σ) × Option Moment →
    Pass (List (Cursor σ) × List (Cursor σ) × Option Moment) (Option (Moment × Union σ))
  | (inclusions, exclusions, last) =>
    match least inclusions with
    | none => .done none
    | some m =>
      let inclusions := advanceFirst m inclusions
      if last.any fun before => m ≤ before then .again (inclusions, exclusions, last)
      else
        match hasMoment m exclusions with
        | (true, exclusions) => .again (inclusions, exclusions, some m)
        | (false, exclusions) => .done (some (m, ⟨inclusions, exclusions, some m⟩))

theorem produceFrom_ends (inclusions exclusions : List (Cursor σ)) (last : Option Moment) :
    Pass.EndsWithin pass (total inclusions + 1) (.again (inclusions, exclusions, last))
      (produceFrom inclusions exclusions last) := by
  fun_induction produceFrom inclusions exclusions last with
  | case1 inclusions exclusions last hleast =>
    exact .next (by simp only [pass, hleast]) (.done _ _)
  | case2 inclusions exclusions last m hleast inclusions' hlast ih =>
    refine .next ?_ (ih.mono (total_advanceFirst_lt (exists_of_least hleast)))
    simp only [pass, hleast]
    exact if_pos hlast
  | case3 inclusions exclusions last m hleast inclusions' hlast exclusions' hhas ih =>
    refine .next ?_ (ih.mono (total_advanceFirst_lt (exists_of_least hleast)))
    simp only [pass, hleast]
    rw [if_neg hlast, hhas]
  | case4 inclusions exclusions last m hleast inclusions' hlast exclusions' hhas =>
    refine .next ?_ (.done _ _)
    simp only [pass, hleast]
    rw [if_neg hlast, hhas]

/-- **Looking for the next moment of a union ends**, also when all moments are
excluded: every pass takes a moment from an inclusion. -/
theorem produce_ends (u : Union σ) :
    Pass.EndsWithin pass (u.size + 1) (.again (u.inclusions, u.exclusions, u.last)) u.produce :=
  produceFrom_ends u.inclusions u.exclusions u.last

end Union

/-! ### What the loops ask -/

namespace Cascade

/-- What a property of walks must keep for a source to keep it. -/
structure Kept (I : Cascade → Prop) : Prop where
  next : ∀ {c}, I c → I c.next.2
  raiseThreshold : ∀ {c}, I c → ∀ threshold, I (c.raiseThreshold threshold)
  instanceFound : ∀ {c}, I c → I c.instanceFound

variable {I : Cascade → Prop}

theorem Kept.gather (hI : Kept I) (sel : PeriodSelection) (start : Stamp) (taken : List Stamp)
    {c : Cascade} (h : I c) : I (sel.gather start taken c).2.2 := by
  fun_induction PeriodSelection.gather sel start taken c with
  | case1 taken c s c' hstep hperiod ih => exact ih (by simpa only [hstep] using hI.next h)
  | case2 taken c s c' hstep hperiod => simpa only [hstep] using hI.next h
  | case3 taken c c' hstep => simpa only [hstep] using hI.next h

theorem Kept.first (hI : Kept I) (sel : PeriodSelection) {c : Cascade} (h : I c) :
    I (sel.first c).2 := by
  unfold PeriodSelection.first
  split
  · exact h
  · exact hI.next h

theorem Kept.positions (hI : Kept I) (sel : PeriodSelection) {c : Cascade} (h : I c) :
    I (sel.next c).2.2 := by
  fun_induction PeriodSelection.next sel c with
  | case1 sel c s selected hsel => exact h
  | case2 sel c hsel c' hstep => simpa only [hstep] using hI.first sel h
  | case3 sel c hsel s c' hstep start members ih =>
    exact ih (hI.gather sel start [s] (by simpa only [hstep] using hI.first sel h))

theorem Kept.candidates (hI : Kept I) {c : Candidates} (h : I c.cascade) :
    I c.next.2.cascade := by
  unfold Candidates.next
  split
  · exact hI.next h
  · exact hI.positions _ h

theorem Kept.produceFrom (hI : Kept I) {s s' : RuleSource} {candidates : Candidates} {m : Moment}
    (h : I candidates.cascade) (hstep : s.produceFrom candidates = some (m, s')) :
    I s'.candidates.cascade := by
  fun_induction RuleSource.produceFrom s candidates with
  | case1 | case2 | case3 => exact absurd hstep (by simp)
  | case4 c stamp c' hnext candidate hpast instant hnew hleft =>
    obtain ⟨-, rfl⟩ := Prod.mk.inj (Option.some.inj hstep)
    exact hI.instanceFound (by simpa only [hnext] using hI.candidates h)
  | case5 c stamp c' hnext candidate hpast instant hnew ih =>
    exact ih (by simpa only [hnext] using hI.candidates h) hstep

theorem Kept.prune (hI : Kept I) {s : RuleSource} (h : I s.candidates.cascade) (date : Moment) :
    I (s.prune date).candidates.cascade := by
  unfold RuleSource.prune
  split
  · exact hI.raiseThreshold h _
  · exact h

theorem Kept.skip (hI : Kept I) {s : RuleSource} (h : I s.candidates.cascade) (date : Moment) :
    (s.skip date).Within (fun _ => True) (fun s => I s.candidates.cascade) := by
  fun_induction RuleSource.skip date s with
  | case1 => trivial
  | case2 s m s' hstep hlt ih => exact ih (hI.produceFrom h hstep)
  | case3 s m s' hstep hge => exact ⟨trivial, hI.produceFrom h hstep⟩

/-- What a walk keeps, a rule keeps that goes through it. -/
theorem Kept.confines (hI : Kept I) : Cursor.Confines (fun _ => True)
    (fun s : RuleSource => I s.candidates.cascade) where
  produce h hstep := ⟨trivial, hI.produceFrom h hstep⟩
  seek h date := hI.skip (hI.prune h date) date

/-- Whether a walk is one that the chain of a rule follows. -/
def Driven (rule : Rule) (start : Moment) (limits : Limits) (k : Cascade) : Prop :=
  ∃ c : Chain, c.Reachable rule start limits ∧ c.Follows k

theorem kept_driven (rule : Rule) (start : Moment) (limits : Limits) :
    Kept (Driven rule start limits) where
  next := by
    rintro k ⟨c, hc, hk⟩
    obtain ⟨c', hreturns, hfollows⟩ := hk.returns
    exact ⟨c', hc.returns hreturns, hfollows⟩
  raiseThreshold := by
    rintro k ⟨c, hc, hk⟩ threshold
    exact ⟨_, hc.raiseThreshold threshold, hk.raiseThreshold threshold⟩
  instanceFound := by
    rintro k ⟨c, hc, hk⟩
    exact ⟨_, hc.instanceFound, hk.instanceFound⟩

end Cascade

/-! ### Every loop ends -/

namespace Cursor

variable {σ : Type} [Source σ] {P : Moment → Prop} {I : σ → Prop}

/-- The cursor after a sequence of questions. -/
def after : List Query → Cursor σ → Cursor σ
  | [], c => c
  | q :: qs, c => after qs (c.ask q).2

theorem Confines.after (hI : Confines P I) {c : Cursor σ} (h : c.Within P I) (qs : List Query) :
    (c.after qs).Within P I := by
  induction qs generalizing c with
  | nil => exact h
  | cons q qs ih => exact ih (hI.ask h q).2

end Cursor

namespace RuleSource

/-- Whether every loop ends that the expansion of a rule runs through, in every
state that it can be in. -/
structure AlwaysEnds (rule : Rule) (start : Moment) (zone : Zone) (limits : Limits) : Prop where
  /-- In every state of the chain of generators a call for the next candidate
  returns, with the answer of the walk that the chain follows. -/
  candidate : ∀ c : Chain, c.Reachable rule start limits →
    ∃ k : Cascade, c.Follows k ∧ ∃ c', c.Returns (k.next.1, c') ∧ c'.Follows k.next.2
  /-- Whatever the rule was asked, its chain of generators is in such a state, and
  its walk is the one that the chain follows. -/
  chain : ∀ qs, ((Cursor.idle (of rule start zone limits)).after qs).Within (fun _ => True)
    fun s => ∃ c : Chain, c.Reachable rule start limits ∧ c.Follows s.candidates.cascade
  /-- Gathering a period ends, wherever the walk stands. -/
  gather : ∀ (sel : PeriodSelection) (first : Stamp) (taken : List Stamp) (k : Cascade),
    Pass.EndsWithin (sel.gatherPass first) (k.size + 1) (.again (taken, k))
      (sel.gather first taken k)
  /-- Looking for a candidate that is selected by its position ends, wherever the
  walk stands and whatever the positions are. -/
  position : ∀ (sel : PeriodSelection) (k : Cascade),
    Pass.EndsWithin PeriodSelection.pass (PeriodSelection.load sel.waiting k + 1)
      (.again (sel, k)) (sel.next k)
  /-- Looking for the next instant ends in every state. -/
  instant : ∀ s : RuleSource,
    Pass.EndsWithin s.pass (s.size + 1) (.again s.candidates) s.produce
  /-- Passing over the instants before a date ends in every state. -/
  advanceTo : ∀ (date : Moment) (c : Cursor RuleSource),
    Pass.EndsWithin (Cursor.pass date) (c.size + 1) (seeks date c) (c.advanceTo date)
  /-- Looking for the next moment of a union ends in every state. -/
  union : ∀ {σ : Type} [Source σ] (u : Union σ),
    Pass.EndsWithin Union.pass (u.size + 1) (.again (u.inclusions, u.exclusions, u.last)) u.produce

/-- **Expansion always ends**, for every rule, start, zone and limits. -/
theorem alwaysEnds (rule : Rule) (start : Moment) (zone : Zone) (limits : Limits) :
    AlwaysEnds rule start zone limits where
  candidate c hc := by
    obtain ⟨k, hk⟩ := hc.follows
    exact ⟨k, hk, hk.returns⟩
  chain qs := by
    have hbegin : Cascade.Driven rule start limits (of rule start zone limits).candidates.cascade :=
      ⟨_, .start, Chain.follows_of rule start limits⟩
    exact (Cascade.kept_driven rule start limits).confines.after (c := .idle _) hbegin qs
  gather := PeriodSelection.gather_ends
  position := PeriodSelection.next_ends
  instant := produce_ends
  advanceTo := advanceTo_ends
  union := Union.produce_ends

end RuleSource

end Recurrence
