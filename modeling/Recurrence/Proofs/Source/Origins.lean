/-
# The candidates behind the instants

Each instant of a rule comes from one candidate: the first that lies within the
bound and is new. The candidates before it are passed over for good. Whatever
limits an expansion has, and also when it is given up, its candidates are taken
from a list that ascends (`Candidates.reserve`), so the candidates behind the
instants ascend as well.

Key definitions: `Candidates.reserve`, `RuleSource.originFrom`, `RuleSource.origins`.
Key theorems: `Candidates.reserve_of_next`, `RuleSource.produceFrom_eq`,
`RuleSource.moments_eq`, `RuleSource.origins_sublist`.
-/
import Recurrence.Proofs.Source.Emission

namespace Recurrence

/-! ### What may still be handed out -/

namespace PeriodSelection

/-- Gathering moves candidates from the walk into the period and the waiting
place. -/
theorem gather_append_pending (sel : PeriodSelection) (start : Stamp) (taken : List Stamp)
    (c : Cascade) :
    (sel.gather start taken c).1 ++ ((sel.gather start taken c).2.1.toList ++
      (sel.gather start taken c).2.2.pending) = taken.reverse ++ c.pending := by
  fun_induction gather sel start taken c with
  | case1 taken c s c' hstep hperiod ih =>
    rw [ih, Cascade.pending_of_next hstep]
    simp
  | case2 taken c s c' hstep hperiod =>
    rw [Cascade.pending_of_next hstep]
    rfl
  | case3 taken c c' hstep =>
    have hpending : c'.pending = c.pending := by
      unfold Cascade.next at hstep
      split at hstep
      · simp at hstep
      · rw [← (Prod.mk.inj hstep).2]
        rfl
    rw [hpending]
    rfl

/-- The candidates that a selection may still hand out: those that are selected
or wait, and what its walk has still to visit. -/
def reserve (sel : PeriodSelection) (c : Cascade) : List Stamp :=
  sel.selected ++ (sel.waiting.toList ++ c.pending)

theorem first_cons_pending {sel : PeriodSelection} {c c' : Cascade} {s : Stamp}
    (h : sel.first c = (some s, c')) : sel.waiting.toList ++ c.pending = s :: c'.pending := by
  unfold first at h
  split at h
  · rename_i heq
    obtain ⟨hs, rfl⟩ := Prod.mk.inj h
    obtain rfl := Option.some.inj hs
    rw [heq]
    rfl
  · rename_i heq
    rw [heq, Cascade.pending_of_next h]
    rfl

theorem reserve_of_next {sel sel' : PeriodSelection} {c c' : Cascade} {s : Stamp}
    (h : sel.next c = (some s, sel', c')) :
    List.Sublist (s :: sel'.reserve c') (sel.reserve c) := by
  fun_induction next sel c with
  | case1 sel c s' selected hsel =>
    simp only [Prod.mk.injEq, Option.some.injEq] at h
    obtain ⟨rfl, rfl, rfl⟩ := h
    rw [reserve, reserve, hsel]
    exact List.Sublist.refl _
  | case2 => simp at h
  | case3 sel c hsel s' c₁ hfirst start members ih =>
    have hgather : members.1 ++ (members.2.1.toList ++ members.2.2.pending) = s' :: c₁.pending :=
      sel.gather_append_pending start [s'] c₁
    refine (ih h).trans ?_
    simp only [reserve]
    rw [hsel, List.nil_append, first_cons_pending hfirst, ← hgather]
    exact (atPositions_sublist _ _).append (List.Sublist.refl _)

end PeriodSelection

namespace Candidates

/-- The candidates that may still be handed out. -/
def reserve (c : Candidates) : List Stamp :=
  match c.selection with
  | none => c.cascade.pending
  | some sel => sel.reserve c.cascade

/-- **The next candidate is taken from the reserve**, and so is what is left
behind it. -/
theorem reserve_of_next {c c' : Candidates} {s : Stamp} (h : c.next = (some s, c')) :
    List.Sublist (s :: c'.reserve) c.reserve := by
  unfold next at h
  split at h
  · rename_i hsel
    simp only [Prod.mk.injEq] at h
    have hnext : c.cascade.next = (some s, c.cascade.next.2) := Prod.ext h.1 rfl
    rw [← h.2]
    simp only [reserve, hsel]
    rw [← Cascade.pending_of_next hnext]
  · rename_i sel hsel
    simp only [Prod.mk.injEq] at h
    have hnext : sel.next c.cascade = (some s, (sel.next c.cascade).2) := Prod.ext h.1 rfl
    rw [← h.2]
    simp only [reserve, hsel]
    exact PeriodSelection.reserve_of_next hnext

@[simp] theorem reserve_instanceFound (c : Candidates) : c.instanceFound.reserve = c.reserve := by
  unfold reserve
  cases hsel : c.selection <;> simp only [instanceFound, hsel] <;> rfl

end Candidates

theorem Rule.reserve_candidates (rule : Rule) (start : Moment) (limits : Limits) :
    (rule.candidates start limits).reserve = (rule.candidates start limits).cascade.pending := by
  unfold Candidates.reserve
  split
  · rfl
  · rename_i sel hsel
    simp only [Rule.candidates] at hsel
    split at hsel
    · simp at hsel
    · rw [← Option.some.inj hsel]
      rfl

/-! ### The candidate of an instant -/

namespace RuleSource

/-- The candidate that gives the next instant, and the candidates behind it. -/
def originFrom (s : RuleSource) (candidates : Candidates) : Option (Stamp × Candidates) :=
  match _step : candidates.next with
  | (none, _) => none
  | (some c, candidates') =>
    if s.isPast (c.toMoment s.dateOnly) then none
    else if s.isNew (s.instant c) then
      if s.remaining = some 0 then none else some (c, candidates')
    else s.originFrom candidates'
termination_by candidates.size
decreasing_by exact Candidates.size_of_next _step

theorem originFrom_none (s : RuleSource) {candidates candidates' : Candidates}
    (h : candidates.next = (none, candidates')) : s.originFrom candidates = none := by
  unfold originFrom
  split
  · rfl
  · rename_i heq
    rw [h] at heq
    exact absurd (Prod.mk.inj heq).1 (by simp)

theorem originFrom_some (s : RuleSource) {candidates candidates' : Candidates} {c : Stamp}
    (h : candidates.next = (some c, candidates')) : s.originFrom candidates =
      if s.isPast (c.toMoment s.dateOnly) then none
      else if s.isNew (s.instant c) then
        if s.remaining = some 0 then none else some (c, candidates')
      else s.originFrom candidates' := by
  conv => lhs; unfold originFrom
  split
  · rename_i heq
    rw [h] at heq
    exact absurd (Prod.mk.inj heq).1 (by simp)
  · rename_i heq
    rw [h] at heq
    obtain ⟨hc, rfl⟩ := Prod.mk.inj heq
    obtain rfl := Option.some.inj hc
    rfl

/-- The state behind the instant of a candidate. -/
def behind (s : RuleSource) (c : Stamp) (candidates : Candidates) : RuleSource :=
  { s.after (s.instant c) with candidates := candidates.instanceFound }

/-- **A source produces the instant of its next origin.** -/
theorem produceFrom_eq (s : RuleSource) (candidates : Candidates) :
    s.produceFrom candidates =
      (s.originFrom candidates).map fun (c, candidates') =>
        (s.instant c, s.behind c candidates') := by
  fun_induction originFrom s candidates with
  | case1 candidates candidates' hstep => exact s.produceFrom_none (by rw [hstep])
  | case2 candidates c candidates' hstep hpast =>
    rw [s.produceFrom_some (c := c) (by rw [hstep]), if_pos hpast]
    rfl
  | case3 candidates c candidates' hstep hpast hnew hspent =>
    rw [s.produceFrom_some (c := c) (by rw [hstep]), if_neg hpast, if_pos hnew, if_pos hspent]
    rfl
  | case4 candidates c candidates' hstep hpast hnew hspent =>
    rw [s.produceFrom_some (c := c) (by rw [hstep]), if_neg hpast, if_pos hnew, if_neg hspent,
      hstep]
    rfl
  | case5 candidates c candidates' hstep hpast hnew ih =>
    rw [s.produceFrom_some (c := c) (by rw [hstep]), if_neg hpast, if_neg hnew, hstep]
    exact ih

/-- What every candidate that is handed out leaves true holds behind an origin. -/
theorem originFrom_keeps {s : RuleSource} {Q : Candidates → Prop}
    (hQ : ∀ candidates, Q candidates → Q candidates.next.2) {candidates candidates' : Candidates}
    {c : Stamp} (h : s.originFrom candidates = some (c, candidates')) (hq : Q candidates) :
    Q candidates' := by
  fun_induction originFrom s candidates with
  | case1 => simp at h
  | case2 => simp at h
  | case3 => simp at h
  | case4 candidates c' candidates'' hstep =>
    obtain ⟨-, rfl⟩ := Prod.mk.inj (Option.some.inj h)
    have hnext := hQ candidates hq
    rwa [hstep] at hnext
  | case5 candidates c' candidates'' hstep hpast hnew ih =>
    have hnext := hQ candidates hq
    rw [hstep] at hnext
    exact ih h hnext

theorem reserve_of_originFrom {s : RuleSource} {candidates candidates' : Candidates} {c : Stamp}
    (h : s.originFrom candidates = some (c, candidates')) :
    List.Sublist (c :: candidates'.reserve) candidates.reserve := by
  fun_induction originFrom s candidates with
  | case1 => simp at h
  | case2 => simp at h
  | case3 => simp at h
  | case4 candidates c' candidates'' hstep =>
    obtain ⟨rfl, rfl⟩ := Prod.mk.inj (Option.some.inj h)
    exact Candidates.reserve_of_next hstep
  | case5 candidates c' candidates'' hstep hpast hnew ih =>
    exact ((ih h).trans (List.sublist_cons_self _ _)).trans (Candidates.reserve_of_next hstep)

theorem size_of_originFrom {s : RuleSource} {candidates candidates' : Candidates} {c : Stamp}
    (h : s.originFrom candidates = some (c, candidates')) :
    (s.behind c candidates').size < candidates.size :=
  size_produceFrom (s := s) (by rw [produceFrom_eq, h]; rfl)

/-- The candidates that give the instants of a source, one for each. -/
def origins (s : RuleSource) : List Stamp :=
  match _step : s.originFrom s.candidates with
  | none => []
  | some (c, candidates) => c :: origins (s.behind c candidates)
termination_by s.size
decreasing_by exact size_of_originFrom _step

theorem origins_none {s : RuleSource} (h : s.originFrom s.candidates = none) : s.origins = [] := by
  unfold origins
  split
  · rfl
  · rename_i heq
    rw [h] at heq
    exact absurd heq (by simp)

theorem origins_some {s : RuleSource} {c : Stamp} {candidates : Candidates}
    (h : s.originFrom s.candidates = some (c, candidates)) :
    s.origins = c :: (s.behind c candidates).origins := by
  conv => lhs; unfold origins
  split
  · rename_i heq
    rw [h] at heq
    exact absurd heq (by simp)
  · rename_i heq
    rw [h] at heq
    obtain ⟨rfl, rfl⟩ := Prod.mk.inj (Option.some.inj heq)
    rfl

theorem produce_eq (s : RuleSource) :
    Source.produce s = (s.originFrom s.candidates).map fun (c, candidates) =>
      (s.instant c, s.behind c candidates) :=
  s.produceFrom_eq s.candidates

/-- **The instants of a source are those of its origins.** -/
theorem moments_eq (s : RuleSource) : Source.moments s = s.origins.map s.instant := by
  -- not by `fun_induction`, which would open `origins` on both sides
  induction hn : s.size using Nat.strong_induction_on generalizing s with
  | _ n ih =>
    cases horigin : s.originFrom s.candidates with
    | none =>
      rw [origins_none horigin, Source.moments_none (by rw [produce_eq, horigin]; rfl)]
      rfl
    | some p =>
      obtain ⟨c, candidates⟩ := p
      rw [origins_some horigin, Source.moments_some (by rw [produce_eq, horigin]; rfl),
        ih _ (hn ▸ size_of_originFrom horigin) _ rfl]
      rfl

theorem origins_sublist (s : RuleSource) : List.Sublist s.origins s.candidates.reserve := by
  fun_induction origins s with
  | case1 => exact List.nil_sublist _
  | case2 s c candidates hstep ih =>
    refine List.Sublist.trans ?_ (reserve_of_originFrom hstep)
    rw [behind, Candidates.reserve_instanceFound] at ih
    exact ih.cons_cons c

end RuleSource

end Recurrence
