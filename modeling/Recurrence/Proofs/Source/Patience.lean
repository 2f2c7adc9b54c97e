/-
# Patience and instants

A rule whose instants are each reached within so many years of the one before has
all of them under every limit that is not less. As long as nothing is passed over,
the iterator of such a rule then answers as the one that is never given up, unless
positions count from the end of a week that the limit may cut off.

Key definitions: `RuleSource.withPatience`, `RuleSource.gaps`, `RuleSource.KeepsPace`.
Key theorems: `RuleSource.produce_withPatience`, `RuleSource.moments_kept`,
`RuleSource.KeepsPace.replies`, `RuleSource.keepsPace_staysWithin`.
-/
import Recurrence.Proofs.Expansion.GivenUp
import Recurrence.Proofs.Source.Origins
import Recurrence.Proofs.Source.Seek
import Recurrence.Proofs.Source.Tree

namespace Recurrence

namespace RuleSource

/-- The source with another limit of years without an instance. -/
def withPatience (s : RuleSource) (n : Nat) : RuleSource :=
  { s with candidates := s.candidates.withPatience n }

/-- The years that a source may still enter. -/
def yearsLeft (s : RuleSource) : Nat :=
  s.candidates.cascade.years.left

/-- The years that are entered for each instant, from the one before it; for the
first one the year of the start counts. A year that is entered ahead counts where it
is entered: positions are known when the next period has begun, so the first instant of
a yearly rule with the position 1 takes two years, the last one none, and each of the
others one. -/
def gaps (s : RuleSource) : List Nat :=
  match _step : s.produce with
  | none => []
  | some (_, s') => (s.yearsLeft - s'.yearsLeft) :: gaps s'
termination_by s.size
decreasing_by exact size_produce _step

theorem gaps_some {s s' : RuleSource} {m : Moment} (h : s.produce = some (m, s')) :
    s.gaps = (s.yearsLeft - s'.yearsLeft) :: s'.gaps := by
  conv => lhs; unfold gaps
  split
  · rename_i heq
    rw [h] at heq
    exact absurd heq (by simp)
  · rename_i heq
    rw [h] at heq
    obtain ⟨-, rfl⟩ := Prod.mk.inj (Option.some.inj heq)
    rfl

/-! ### The candidate of an instant under another limit -/

/-- Which candidate is taken does not depend on those that the source itself
stands before. -/
theorem originFrom_candidates (s : RuleSource) (candidates candidates' : Candidates) :
    { s with candidates }.originFrom candidates' = s.originFrom candidates' := by
  fun_induction originFrom s candidates' with
  | case1 candidates' candidates'' hstep => exact originFrom_none _ hstep
  | case2 candidates' c candidates'' hstep hpast =>
    rw [originFrom_some _ hstep]
    exact if_pos hpast
  | case3 candidates' c candidates'' hstep hpast hnew hspent =>
    rw [originFrom_some _ hstep]
    exact (if_neg hpast).trans ((if_pos hnew).trans (if_pos hspent))
  | case4 candidates' c candidates'' hstep hpast hnew hspent =>
    rw [originFrom_some _ hstep]
    exact (if_neg hpast).trans ((if_pos hnew).trans (if_neg hspent))
  | case5 candidates' c candidates'' hstep hpast hnew ih =>
    rw [originFrom_some _ hstep]
    exact (if_neg hpast).trans ((if_neg hnew).trans ih)

theorem spends_originFrom {s : RuleSource} {candidates candidates' : Candidates} {c : Stamp}
    (h : s.originFrom candidates = some (c, candidates')) :
    candidates.cascade.Spends candidates'.cascade :=
  originFrom_keeps (Q := fun candidates' => candidates.cascade.Spends candidates'.cascade)
    (fun candidates' hspends => hspends.trans candidates'.spends_next) h (.refl _)

/-- **The candidate of an instant is the same under every limit that its count is
within**; with positions, if the walk is not in a hurry. -/
theorem originFrom_withPatience {s : RuleSource} {candidates candidates' : Candidates} {c : Stamp}
    (h : s.originFrom candidates = some (c, candidates')) {n : Nat}
    (hn : candidates'.cascade.barren ≤ n)
    (hc : candidates.isSelective = true → candidates.cascade.Unhurried) :
    s.originFrom (candidates.withPatience n) = some (c, candidates'.withPatience n) := by
  fun_induction originFrom s candidates with
  | case1 => simp at h
  | case2 => simp at h
  | case3 => simp at h
  | case4 candidates c' candidates'' hstep hpast hnew hspent =>
    obtain ⟨rfl, rfl⟩ := Prod.mk.inj (Option.some.inj h)
    rw [originFrom_some _ (Candidates.next_withPatience hstep hn hc), if_neg hpast, if_pos hnew,
      if_neg hspent]
  | case5 candidates c' candidates'' hstep hpast hnew ih =>
    have hspends := candidates.spends_next
    have hsel := isSelective_next candidates
    rw [hstep] at hspends hsel
    have hlater := (spends_originFrom h).barren
    rw [originFrom_some _ (Candidates.next_withPatience hstep (hlater.trans hn) hc), if_neg hpast,
      if_neg hnew]
    exact ih h fun hselective => hspends.unhurried (hc (hsel ▸ hselective))

/-- Where no candidate is taken, none is taken of those that trail them. -/
theorem originFrom_none_of_trails {s : RuleSource} {candidates candidates' : Candidates} {n : Nat}
    (htrails : candidates.Trails n candidates') (h : s.originFrom candidates = none) :
    s.originFrom candidates' = none := by
  fun_induction originFrom s candidates' generalizing candidates with
  | case1 => rfl
  | case2 => rfl
  | case3 => rfl
  | case4 candidates' c candidates'' hstep hpast hnew hspent =>
    obtain ⟨candidates₁, hfound, -⟩ := htrails.next hstep
    rw [originFrom_some _ hfound, if_neg hpast, if_pos hnew, if_neg hspent] at h
    exact absurd h (by simp)
  | case5 candidates' c candidates'' hstep hpast hnew ih =>
    obtain ⟨candidates₁, hfound, htrails₁⟩ := htrails.next hstep
    rw [originFrom_some _ hfound, if_neg hpast, if_neg hnew] at h
    exact ih htrails₁ h

/-! ### Instants under another limit -/

variable {s : RuleSource} {n : Nat}

theorem withPatience_originFrom (s : RuleSource) (n : Nat) :
    (s.withPatience n).originFrom (s.withPatience n).candidates =
      s.originFrom (s.candidates.withPatience n) :=
  originFrom_candidates s _ _

/-- **An instant is produced under every limit that the count of its candidate is
within.** -/
theorem produce_withPatience {c : Stamp} {candidates : Candidates}
    (h : s.originFrom s.candidates = some (c, candidates)) (hn : candidates.cascade.barren ≤ n)
    (hc : s.candidates.isSelective = true → s.candidates.cascade.Unhurried) :
    Source.produce (s.withPatience n) =
      (Source.produce s).map fun (m, s') => (m, s'.withPatience n) := by
  rw [produce_eq, produce_eq, h, withPatience_originFrom, originFrom_withPatience h hn hc]
  rfl

theorem produce_withPatience_none (hpaced : s.candidates.Paced)
    (h : s.originFrom s.candidates = none) :
    Source.produce (s.withPatience n) =
      (Source.produce s).map fun (m, s') => (m, s'.withPatience n) := by
  rw [produce_eq, produce_eq, h, withPatience_originFrom,
    originFrom_none_of_trails (hpaced.trails n) h]
  rfl

/-- What is counted for an instant is no more than the years that it takes. -/
theorem barren_le_of_gaps {c : Stamp} {candidates : Candidates}
    (h : s.originFrom s.candidates = some (c, candidates))
    (hbarren : s.candidates.cascade.barren = 0) (hgaps : ∀ years ∈ s.gaps, years ≤ n) :
    candidates.cascade.barren ≤ n ∧ ∀ years ∈ (s.behind c candidates).gaps, years ≤ n := by
  have hspends := (spends_originFrom h).total
  have hstep : s.produce = some (s.instant c, s.behind c candidates) :=
    s.produce_eq.trans (by rw [h]; rfl)
  rw [gaps_some hstep, List.forall_mem_cons] at hgaps
  have hleft : (s.behind c candidates).yearsLeft = candidates.cascade.years.left := rfl
  refine ⟨?_, hgaps.2⟩
  have := hgaps.1
  rw [hleft, yearsLeft] at this
  omega

/-- **A limit that no instant exceeds leaves them all**, whatever it may add with
positions that count from the end. -/
theorem moments_kept (hc : s.candidates.cascade.Unhurried)
    (hbarren : s.candidates.cascade.barren = 0) (hgaps : ∀ years ∈ s.gaps, years ≤ n) :
    Source.moments s <+: Source.moments (s.withPatience n) := by
  -- not by `fun_induction`, which would open `moments` on both sides
  induction hsize : s.size using Nat.strong_induction_on generalizing s with
  | _ size ih =>
    cases h : s.originFrom s.candidates with
    | none =>
      rw [Source.moments_none (by rw [produce_eq, h]; rfl)]
      exact List.nil_prefix
    | some p =>
      obtain ⟨c, candidates⟩ := p
      obtain ⟨hcount, hgaps'⟩ := barren_le_of_gaps h hbarren hgaps
      have hstep : Source.produce s = some (s.instant c, s.behind c candidates) := by
        rw [produce_eq, h]
        rfl
      have hother := produce_withPatience h hcount fun _ => hc
      rw [hstep] at hother
      rw [Source.moments_some hstep, Source.moments_some hother, List.cons_prefix_cons]
      exact ⟨rfl, ih _ (hsize ▸ size_of_originFrom h)
        ((spends_originFrom h).unhurried hc).instanceFound rfl hgaps' rfl⟩

/-! ### Questions under another limit -/

/-- What a property of sources must keep for another limit to make no difference
to them. -/
structure KeepsPace (P : Moment → Prop) (R : RuleSource → Prop) (n : Nat) : Prop where
  paced : ∀ {s}, R s → s.candidates.Paced
  counted : ∀ {s c candidates}, R s → s.originFrom s.candidates = some (c, candidates) →
    candidates.cascade.barren ≤ n
  behind : ∀ {s c candidates}, R s → s.originFrom s.candidates = some (c, candidates) →
    R (s.behind c candidates)
  prune : ∀ {s d}, R s → P d → R (s.prune d)

variable {P : Moment → Prop} {R : RuleSource → Prop}

theorem KeepsPace.same (hR : KeepsPace P R n) (h : R s) : Source.produce (s.withPatience n) =
    (Source.produce s).map fun (m, s') => (m, s'.withPatience n) := by
  cases horigin : s.originFrom s.candidates with
  | none => exact produce_withPatience_none (hR.paced h) horigin
  | some p =>
    exact produce_withPatience horigin (hR.counted h horigin) fun _ => (hR.paced h).unhurried

theorem KeepsPace.produce (hR : KeepsPace P R n) (h : R s) {s' : RuleSource} {m : Moment}
    (hstep : Source.produce s = some (m, s')) : R s' := by
  rw [produce_eq] at hstep
  obtain ⟨p, horigin, hp⟩ := Option.map_eq_some_iff.1 hstep
  obtain ⟨-, rfl⟩ := Prod.mk.inj hp
  exact hR.behind h horigin

theorem prune_withPatience (s : RuleSource) (n : Nat) (d : Moment) :
    (s.withPatience n).prune d = (s.prune d).withPatience n := by
  by_cases h : (s.remaining.isNone && !s.candidates.isSelective) = true
  · rw [prune, prune, if_pos h]
    refine (if_pos h).trans ?_
    simp only [withPatience, Candidates.withPatience, Candidates.raiseThreshold,
      Cascade.raiseThreshold_withPatience]
  · rw [prune, prune, if_neg h]
    exact if_neg h

theorem KeepsPace.skip (hR : KeepsPace P R n) (h : R s) (d : Moment) :
    (s.withPatience n).skip d = (s.skip d).through (withPatience · n) ∧ (s.skip d).Holds R := by
  have hsame := hR.same h
  fun_induction RuleSource.skip d s with
  | case1 s hstep =>
    rw [show Source.produce s = none from hstep] at hsame
    exact ⟨skip_none hsame d, trivial⟩
  | case2 s m s' hstep hlt ih =>
    have hkept := hR.produce h hstep
    rw [show Source.produce s = some (m, s') from hstep] at hsame
    rw [skip_some hsame, if_pos hlt]
    exact ih hkept (hR.same hkept)
  | case3 s m s' hstep hge =>
    rw [show Source.produce s = some (m, s') from hstep] at hsame
    rw [skip_some hsame, if_neg hge]
    exact ⟨rfl, hR.produce h hstep⟩

/-- **Where another limit makes no difference to a source, the answers are the
same.** -/
theorem KeepsPace.replies (hR : KeepsPace P R n) (h : R s) (qs : List Query)
    (hqs : Query.DatesIn P qs) :
    (Cursor.idle (s.withPatience n)).replies qs = (Cursor.idle s).replies qs := by
  have hseek : ∀ {s d}, R s → P d → (s.withPatience n).seek d =
      (s.seek d).through (withPatience · n) ∧ (s.seek d).Holds R := by
    intro s d hs hd
    unfold seek
    rw [prune_withPatience]
    exact hR.skip (hR.prune hs hd) d
  have hembeds : Cursor.EmbedsOn P R (withPatience · n) :=
    ⟨hR.same, fun hs hd => (hseek hs hd).1, fun hs hstep => hR.produce hs hstep,
      fun hs hd => (hseek hs hd).2⟩
  exact hembeds.replies (c := .idle s) h qs hqs

/-- Behind an instant a source comes from the same expansion. -/
theorem sameRule_behind {c : Stamp} {candidates : Candidates}
    (h : s.originFrom s.candidates = some (c, candidates)) :
    SameRule s (s.behind c candidates) := by
  have hsel := originFrom_keeps
    (Q := fun candidates => candidates.isSelective = s.candidates.isSelective)
    (fun candidates hsel => (isSelective_next candidates).trans hsel) h rfl
  exact sameRule_after (show candidates.instanceFound.isSelective = _ from hsel) _

/-- Whether a source that passes nothing over takes at most so many years for each
instant. -/
structure StaysWithin (n : Nat) (s : RuleSource) : Prop where
  keeps : ¬ s.Prunes
  paced : s.candidates.Paced
  barren : s.candidates.cascade.barren = 0
  gaps : ∀ years ∈ s.gaps, years ≤ n

theorem keepsPace_staysWithin (P : Moment → Prop) (n : Nat) : KeepsPace P (StaysWithin n) n where
  paced h := h.paced
  counted h horigin := (barren_le_of_gaps horigin h.barren h.gaps).1
  behind h horigin :=
    ⟨fun hprunes => h.keeps ((sameRule_behind horigin).prunes_iff.1 hprunes),
      (originFrom_keeps (fun _ hpaced => hpaced.next) horigin h.paced).instanceFound, rfl,
      (barren_le_of_gaps horigin h.barren h.gaps).2⟩
  prune h _ := by
    rw [prune_of_not h.keeps]
    exact h

end RuleSource

end Recurrence
