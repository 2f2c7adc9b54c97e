/-
# The ends of a rule

A rule with a count or a bound has a prefix of the instants that it has without
an end. A count is used up by instants alone, not by the candidates that are
passed over. A bound ends the rule at the first candidate past it, be it passed
over or not; as the candidates ascend, none behind it lies within the bound, so
what is cut off is exactly what the bound excludes.

Key definitions: `RuleSource.CutAt`.
Key theorems: `RuleSource.originFrom_count`, `RuleSource.originFrom_bound`,
`RuleSource.finish_cuts_prefix`.
-/
import Recurrence.Proofs.Expansion.Candidates
import Recurrence.Proofs.Source.Origins

namespace Recurrence

namespace RuleSource

/-! ### One instant -/

/-- **A count changes nothing until it is used up.** -/
theorem originFrom_count (s : RuleSource) (hs : s.remaining = none) (n : Nat)
    (candidates : Candidates) :
    ({ s with remaining := some n } : RuleSource).originFrom candidates =
      if n = 0 then none else s.originFrom candidates := by
  fun_induction originFrom s candidates with
  | case1 candidates candidates' hstep => rw [originFrom_none _ hstep, ite_self]
  | case2 candidates c candidates' hstep hpast =>
    rw [originFrom_some _ hstep, ite_self]
    exact if_pos hpast
  | case3 candidates c candidates' hstep hpast hnew hspent =>
    exact absurd (hs.symm.trans hspent) (by simp)
  | case4 candidates c candidates' hstep hpast hnew hspent =>
    rw [originFrom_some _ hstep]
    refine (if_neg hpast).trans ((if_pos hnew).trans ?_)
    simp only [Option.some.injEq]
  | case5 candidates c candidates' hstep hpast hnew ih =>
    rw [originFrom_some _ hstep]
    exact (if_neg hpast).trans ((if_neg hnew).trans ih)

/-- Whether a candidate of a source lies within a bound. -/
def within (s : RuleSource) (bound : Moment) (c : Stamp) : Bool :=
  (c.toMoment s.dateOnly).withinBound bound

theorem isPast_bound (s : RuleSource) (bound : Moment) (c : Stamp) :
    ({ s with bound := some bound } : RuleSource).isPast (c.toMoment s.dateOnly) =
      !s.within bound c := by
  simp [isPast, within]

/-- Before a candidate within a bound there is none past it. -/
theorem within_of_le {s : RuleSource} {bound : Moment} {a b : Stamp} (h : a ≤ b)
    (hb : s.within bound b = true) : s.within bound a = true := by
  by_contra ha
  have hpast := isPast_mono (s := { s with bound := some bound }) h
    (by rw [isPast_bound]; simpa using ha)
  rw [isPast_bound, hb] at hpast
  exact absurd hpast (by simp)

/-- **A bound excludes an instant by its candidate**: those that are passed over
before it lie within the bound if it does. -/
theorem originFrom_bound (s : RuleSource) (hs : s.bound = none) (bound : Moment)
    {candidates : Candidates} (hasc : candidates.reserve.Pairwise (· < ·)) :
    ({ s with bound := some bound } : RuleSource).originFrom candidates =
      (s.originFrom candidates).filter fun p => s.within bound p.1 := by
  have hnever : ∀ m, ¬ s.isPast m = true := by
    intro m
    simp [isPast, hs]
  fun_induction originFrom s candidates with
  | case1 candidates candidates' hstep => exact originFrom_none _ hstep
  | case2 candidates c candidates' hstep hpast => exact absurd hpast (hnever _)
  | case3 candidates c candidates' hstep hpast hnew hspent =>
    rw [originFrom_some _ hstep, Option.filter_none]
    exact ite_eq_left_iff.2 fun _ => (if_pos hnew).trans (if_pos hspent)
  | case4 candidates c candidates' hstep hpast hnew hspent =>
    rw [originFrom_some _ hstep, isPast_bound]
    cases hwithin : s.within bound c with
    | true =>
      rw [Option.filter_some_pos (by exact hwithin)]
      exact (if_pos hnew).trans (if_neg hspent)
    | false =>
      rw [Option.filter_some_neg (by simpa using hwithin)]
      rfl
  | case5 candidates c candidates' hstep hpast hnew ih =>
    have hsublist := Candidates.reserve_of_next hstep
    obtain ⟨hfirst, hasc'⟩ := List.pairwise_cons.1 (hasc.sublist hsublist)
    rw [originFrom_some _ hstep, isPast_bound]
    cases hwithin : s.within bound c with
    | true => exact (if_neg hnew).trans (ih hasc')
    | false =>
      -- what follows a candidate past the bound is past it too
      symm
      simp only [Bool.not_false, if_true]
      rw [Option.filter_eq_none_iff]
      rintro ⟨c', candidates''⟩ horigin hc'
      have hmem := (reserve_of_originFrom horigin).subset List.mem_cons_self
      rw [within_of_le (hfirst c' hmem).le hc'] at hwithin
      exact absurd hwithin (by simp)

/-! ### All instants -/

theorem origins_count (s : RuleSource) (hs : s.remaining = none) (n : Nat) :
    ({ s with remaining := some n } : RuleSource).origins = s.origins.take n := by
  induction n generalizing s with
  | zero =>
    rw [List.take_zero]
    exact origins_none ((s.originFrom_count hs 0 s.candidates).trans (if_pos rfl))
  | succ n ih =>
    have hstep := (s.originFrom_count hs (n + 1) s.candidates).trans (if_neg n.succ_ne_zero)
    cases horigin : s.originFrom s.candidates with
    | none => rw [origins_none (hstep.trans horigin), origins_none horigin, List.take_nil]
    | some p =>
      obtain ⟨c, candidates⟩ := p
      rw [origins_some (hstep.trans horigin), origins_some horigin, List.take_succ_cons,
        ← ih _ (by simp [behind, after, hs])]
      rfl

theorem origins_bound (s : RuleSource) (hs : s.bound = none) (bound : Moment)
    (hasc : s.candidates.reserve.Pairwise (· < ·)) :
    ({ s with bound := some bound } : RuleSource).origins =
      s.origins.takeWhile (s.within bound) := by
  induction hn : s.size using Nat.strong_induction_on generalizing s with
  | _ n ih =>
    have hstep := s.originFrom_bound hs bound hasc
    cases horigin : s.originFrom s.candidates with
    | none =>
      rw [horigin] at hstep
      rw [origins_none horigin]
      exact origins_none hstep
    | some p =>
      obtain ⟨c, candidates⟩ := p
      rw [horigin] at hstep
      rw [origins_some horigin]
      cases hwithin : s.within bound c with
      | false =>
        rw [List.takeWhile_cons_of_neg (by simpa using hwithin)]
        exact origins_none (hstep.trans (Option.filter_some_neg (by simpa using hwithin)))
      | true =>
        have hasc' := (List.pairwise_cons.1 (hasc.sublist (reserve_of_originFrom horigin))).2
        rw [List.takeWhile_cons_of_pos hwithin,
          origins_some (hstep.trans (Option.filter_some_pos hwithin))]
        exact congrArg _ (ih _ (hn ▸ size_of_originFrom horigin) (s.behind c candidates) hs
          (by rwa [behind, Candidates.reserve_instanceFound]) rfl)

/-- In an ascending list those within a bound stand in front. -/
theorem filter_within (s : RuleSource) (bound : Moment) {l : List Stamp}
    (hl : l.Pairwise (· < ·)) :
    l.filter (s.within bound) = l.takeWhile (s.within bound) :=
  AscendingList.filter_eq_takeWhile hl fun _ _ h => within_of_le h.le

/-- Whether a source has the instants of another up to a bound: the longest
prefix whose origins lie within the bound, and no origin behind it does. -/
def CutAt (s : RuleSource) (bound : Moment) (cut : RuleSource) : Prop :=
  Source.moments cut = (s.origins.takeWhile (s.within bound)).map s.instant ∧
    s.origins.filter (s.within bound) = s.origins.takeWhile (s.within bound)

/-- **An end cuts the endless rule.** Asked for one instant after the other, a
rule with a count gives the first so many of the instants that it gives without
an end, and a rule with a bound, on its own clocks or in UTC, those whose
candidates lie within the bound. This holds for all limits, also if they give
the expansion up. -/
theorem finish_cuts_prefix (rule : Rule) (start : Moment) (zone : Zone) (limits : Limits) :
    let source (finish : Finish) := of { rule with finish } start zone limits
    let endless := source .never
    (∀ finish n, ((Cursor.idle (source finish)).take n).1 =
      (Source.moments (source finish)).take n) ∧
    Source.moments endless = endless.origins.map endless.instant ∧
    (∀ n, Source.moments (source (.count n)) = (Source.moments endless).take n) ∧
    (∀ bound, endless.CutAt bound (source (.untilLocal bound))) ∧
    ∀ bound, endless.CutAt (zone.utcToLocal bound) (source (.untilUtc bound)) := by
  intro source endless
  have hasc : endless.candidates.reserve.Pairwise (· < ·) := by
    rw [show endless.candidates.reserve = _ from Rule.reserve_candidates _ start limits]
    exact Rule.pairwise_pending { rule with finish := .never } start limits
  have hcut : ∀ bound, endless.CutAt bound { endless with bound := some bound } := by
    intro bound
    refine ⟨?_, filter_within endless bound (hasc.sublist endless.origins_sublist)⟩
    rw [moments_eq, origins_bound endless rfl bound hasc]
    rfl
  refine ⟨fun finish n => Cursor.take_idle _ n, moments_eq endless, fun n => ?_, hcut,
    fun bound => hcut (zone.utcToLocal bound)⟩
  have hcount : (source (.count n)).origins = endless.origins.take n :=
    origins_count endless rfl n
  rw [moments_eq, moments_eq, hcount, List.map_take]
  rfl

end RuleSource

end Recurrence
