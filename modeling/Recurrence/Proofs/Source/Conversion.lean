/-
# Candidates and their instants

The candidates of a rule ascend on the clocks of its zone, but their instants need
not: a candidate that the clocks skip is read as an instant that a later time
shows. What comes between the two is converted to an earlier instant, and a rule,
whose instants ascend, leaves it out. This is all that it leaves out: an instant
from the start on is among those of the rule exactly if it is that of a candidate
that no skipped one has overtaken.

Key theorems: `RuleSource.instant_le_of_shows`, `RuleSource.mem_moments_iff`,
`RuleSource.not_mem_moments_overtaken`.
-/
import Recurrence.Proofs.Source.Rule
import Recurrence.Proofs.Zone.Clocks

namespace Recurrence

open Calendar

namespace Stamp

/-- The seconds of a candidate on its clocks. -/
def wall (c : Stamp) : Int :=
  c.date.days * Moment.daySeconds + (c.toMoment false).daytime

theorem seconds_toMoment {c : Stamp} (h : c.IsValid) (hend : c.hour = 24 → c.date.days < lastDay) :
    (c.toMoment false).seconds? = some c.wall := by
  refine Moment.seconds_of_valid (toMoment_isValid h false) fun t ht hhour => ?_
  simp only [toMoment, Bool.false_eq_true, if_false, Option.mem_some_iff] at ht
  subst ht
  refine hend ?_
  unfold TimeOfDay.of at hhour
  have := h.hour
  split at hhour
  · omega
  · exact hhour

theorem wall_mono {a b : Stamp} (ha : a.IsValid) (hb : b.IsValid) (h : a ≤ b) :
    a.wall ≤ b.wall := by
  have hle := Moment.seconds_le_of_le (toMoment_isValid ha false) (toMoment_isValid hb false)
    (toMoment_mono h false)
  rwa [toMoment_date, toMoment_date] at hle

end Stamp

namespace RuleSource

variable {rule : Rule} {start : Moment} {table : TransitionTable} {limits : Limits}

/-- Each candidate of a rule has its seconds. -/
theorem seconds_of_mem_handedOut (hr : rule.InRange) (hstart : start.IsValid)
    (hend : (∀ t ∈ start.time, t.hour ≤ 23) ∨ limits.maxYear < lastYear) {c : Stamp}
    (hc : c ∈ rule.handedOut start limits) : (c.toMoment false).seconds? = some c.wall := by
  obtain ⟨hvalid, -, hyear⟩ := Rule.valid_of_mem_handedOut hr hstart hc
  refine Stamp.seconds_toMoment hvalid fun hhour => ?_
  rcases hend with htime | hlast
  · have := Rule.hour_of_mem_handedOut hr htime hc
    omega
  · have hdays := (Date.days_bounds hvalid.date).2
    have hmono := yearStart_mono (show c.date.year + 1 ≤ lastYear by simp only [Stamp.date]; omega)
    have hyear := yearStart_add_le (show lastYear < lastYear + 1 by omega)
    unfold lastDay
    omega

/-- **A candidate that the clocks show overtakes no later one.** -/
theorem instant_le_of_shows (hr : rule.InRange) (hstart : start.IsValid)
    (htime : start.hasTime = true) (hz : table.Sparse)
    (hend : (∀ t ∈ start.time, t.hour ≤ 23) ∨ limits.maxYear < lastYear) {g c : Stamp}
    (hg : g ∈ rule.handedOut start limits) (hc : c ∈ rule.handedOut start limits) (hlt : g < c)
    (hshows : ¬ table.zone.Skips (g.toMoment false)) :
    (of rule start table.zone limits).instant g ≤ (of rule start table.zone limits).instant c := by
  have hinstant : ∀ x ∈ rule.handedOut start limits, (of rule start table.zone limits).instant x =
      .ofSeconds (table.zone.toUtc x.wall) := by
    intro x hx
    have hseconds := seconds_of_mem_handedOut hr hstart hend hx
    simp only [instant, of, htime, Bool.not_true, Zone.localToUtc]
    rw [hseconds]
    rfl
  have hwall : g.wall ≤ c.wall := Stamp.wall_mono
    (Rule.valid_of_mem_handedOut hr hstart hg).1 (Rule.valid_of_mem_handedOut hr hstart hc).1 hlt.le
  have hshown : table.zone.Shows g.wall := by
    by_contra hskips
    refine hshows fun wall hw => ?_
    rw [seconds_of_mem_handedOut hr hstart hend hg, Option.mem_some_iff] at hw
    exact hw ▸ hskips
  rw [hinstant g hg, hinstant c hc, Moment.ofSeconds_le_iff]
  exact TransitionTable.toUtc_mono hz hwall hshown

/-- **Which instants a rule has.** An endless rule has, from its start on, the
instants of those candidates that no earlier candidate has overtaken which the
clocks skip. -/
theorem mem_moments_iff (hr : rule.InRange) (hfinish : rule.finish = .never)
    (hstart : start.IsValid) (htime : start.hasTime = true) (hz : table.Sparse)
    (hlimits : limits.maxYear - start.date.year + 2 ≤ limits.maxYearsBetweenInstances)
    (hend : (∀ t ∈ start.time, t.hour ≤ 23) ∨ limits.maxYear < lastYear) (v : Moment) :
    let s := of rule start table.zone limits
    v ∈ Source.moments s ↔ table.zone.localToUtc start ≤ v ∧
      ∃ c, s.IsCandidate c ∧ s.instant c = v ∧
        ∀ g, s.IsCandidate g → g < c → table.zone.Skips (g.toMoment false) → s.instant g ≤ v := by
  intro s
  have hlists := Rule.lists_handedOut rule hstart.1 hlimits
  have hasc := Rule.pairwise_handedOut rule start limits
  have hcount : s.remaining = none := by simp only [s, of, hfinish]
  have hwithin : ∀ m, s.isPast m = false := by
    intro m
    simp [s, isPast, of, hfinish]
  have hnew : ∀ m, s.isNew m = true ↔ table.zone.localToUtc start ≤ m := by
    intro m
    rw [isNew_iff]
    simp [s, of]
  have hcandidate : ∀ c, s.IsCandidate c ↔ c ∈ rule.handedOut start limits :=
    isCandidate_iff hlists
  rw [moments_of rule table.zone hstart.1 hlimits]
  simp only [hcandidate]
  constructor
  · intro hv
    obtain ⟨c, hc, -, hinstant, hv, hfirst⟩ := (mem_emitted hcount hasc v).1 hv
    exact ⟨(hnew v).1 hv, c, hc, hinstant, fun g hg hlt _ => (hfirst g hg hlt).le⟩
  · rintro ⟨hv, c, hc, rfl, hskipped⟩
    refine mem_emitted_of_le hcount hasc hc (hwithin _) ((hnew _).2 hv) fun g hg hlt => ?_
    by_cases hskips : table.zone.Skips (g.toMoment false)
    · exact hskipped g hg hlt hskips
    · exact instant_le_of_shows hr hstart htime hz hend hg hc hlt hskips

/-- Every 45 minutes. -/
def everyFortyFiveMinutes : Rule :=
  { Rule.every .minutely with interval := 45 }

theorem summerTime_sparse : summerTime.Sparse :=
  ⟨by decide, by decide⟩

theorem mem_moments_iff_summerTime :
    let s := of everyFortyFiveMinutes (.atTime 2007 3 11 1 45 0) summerTime.zone ⟨2, 2007⟩
    Moment.atTime 2007 3 11 7 30 0 ∈ Source.moments s ↔
      summerTime.zone.localToUtc (.atTime 2007 3 11 1 45 0) ≤ .atTime 2007 3 11 7 30 0 ∧
      ∃ c, s.IsCandidate c ∧ s.instant c = .atTime 2007 3 11 7 30 0 ∧
        ∀ g, s.IsCandidate g → g < c → summerTime.zone.Skips (g.toMoment false) →
          s.instant g ≤ .atTime 2007 3 11 7 30 0 :=
  mem_moments_iff (by constructor <;> simp [everyFortyFiveMinutes, Rule.every]) rfl (by decide) rfl
    summerTime_sparse (by decide) (Or.inl (by decide)) _

/-- **An instant can be overtaken.** At 2:00 the clocks of New York go to 3:00.
Every 45 minutes from 1:45 on, 2:30 is read as half an hour past the gap, so that
3:15, a quarter past it, comes too late. -/
theorem not_mem_moments_overtaken :
    let start := Moment.atTime 2007 3 11 1 45 0
    let s := of everyFortyFiveMinutes start summerTime.zone ⟨2, 2007⟩
    (everyFortyFiveMinutes.InRange ∧ everyFortyFiveMinutes.finish = .never ∧
      everyFortyFiveMinutes.bySetPos = [] ∧ start.Sought ∧ start.hasTime = true ∧
      summerTime.Sparse ∧ (⟨2, 2007⟩ : Limits).AmpleFrom 2007) ∧
      s.IsCandidate ⟨2007, 3, 11, 3, 15, 0⟩ ∧
      s.instant ⟨2007, 3, 11, 3, 15, 0⟩ = .atTime 2007 3 11 7 15 0 ∧
      summerTime.zone.localToUtc start ≤ .atTime 2007 3 11 7 15 0 ∧
      .atTime 2007 3 11 7 15 0 ∉ Source.moments s := by
  refine ⟨⟨by constructor <;> simp [everyFortyFiveMinutes, Rule.every], rfl, rfl,
    ⟨by decide, by decide⟩, rfl, summerTime_sparse, ⟨by decide, by decide⟩⟩,
    ⟨2, by decide +kernel⟩, by decide +kernel, by decide +kernel, fun hmem => ?_⟩
  have hlists := @Rule.lists_handedOut (.atTime 2007 3 11 1 45 0) ⟨2, 2007⟩ everyFortyFiveMinutes
    (by decide) (by decide)
  have hasc := Rule.pairwise_handedOut everyFortyFiveMinutes (.atTime 2007 3 11 1 45 0) ⟨2, 2007⟩
  have hfirst : (everyFortyFiveMinutes.handedOut (.atTime 2007 3 11 1 45 0) ⟨2, 2007⟩)[0]? =
      some ⟨2007, 3, 11, 1, 45, 0⟩ := (hlists.nth 0).symm.trans (by decide +kernel)
  have hsecond : (everyFortyFiveMinutes.handedOut (.atTime 2007 3 11 1 45 0) ⟨2, 2007⟩)[1]? =
      some ⟨2007, 3, 11, 2, 30, 0⟩ := (hlists.nth 1).symm.trans (by decide +kernel)
  rw [moments_of _ _ (by decide) (by decide)] at hmem
  obtain ⟨c, hc, -, hinstant, -, hbefore⟩ := (mem_emitted rfl hasc _).1 hmem
  generalize everyFortyFiveMinutes.handedOut _ _ = l at hasc hfirst hsecond hc hbefore
  -- the candidate of the instant would have to come before the skipped one
  have hlt : ¬ (⟨2007, 3, 11, 2, 30, 0⟩ : Stamp) < c := fun hlt =>
    absurd (hbefore _ (List.mem_of_getElem? hsecond) hlt) (by decide +kernel)
  rcases l with _ | ⟨a, _ | ⟨b, rest⟩⟩
  · simp at hfirst
  · simp at hsecond
  obtain rfl := Option.some.inj hfirst
  obtain rfl := Option.some.inj hsecond
  obtain ⟨-, hasc⟩ := List.pairwise_cons.1 hasc
  rcases List.mem_cons.1 hc with rfl | hc
  · exact absurd hinstant (by decide +kernel)
  · rcases List.mem_cons.1 hc with rfl | hc
    · exact absurd hinstant (by decide +kernel)
    · exact hlt ((List.pairwise_cons.1 hasc).1 c hc)

end RuleSource

end Recurrence
