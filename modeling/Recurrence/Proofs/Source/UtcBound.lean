/-
# Bounds in UTC

A bound in UTC is compared as the clocks of the zone show it. Clocks that are put
back show it twice, and the bound is then the first of the two instants; clocks that
are put forward skip times, and those before the bound stay in, although they are
read as instants that later times show. A bound in UTC is exact but for these.

Key theorems: `TransitionTable.le_fromUtc_iff`, `RuleSource.within_iff`,
`RuleSource.mem_moments_untilUtc`, `RuleSource.untilUtc_not_exact`.
-/
import Mathlib.Order.Bounds.Defs
import Recurrence.Proofs.Moment.Spelling
import Recurrence.Proofs.Source.Conversion
import Recurrence.Proofs.Source.Ends

namespace Recurrence

open Calendar

/-! ### What the clocks show twice -/

namespace TransitionTable

variable {table : TransitionTable}

/-- The instant for which a time is taken shows the time or, when the clocks skip it, a
later one. -/
theorem le_fromUtc_toUtc (h : table.Sparse) (wall : Int) :
    wall ≤ table.zone.fromUtc (table.zone.toUtc wall) := by
  by_cases hshown : table.zone.Shows wall
  · exact (toUtc_of_shows hshown).1.ge
  · have hskips : ∀ v, v + table.offsetAt v ≠ wall := fun v hv => hshown ⟨v, (h.fromUtc v).trans hv⟩
    rw [toUtc_of_skips h hshown, h.fromUtc]
    generalize hbefore : table.offsetAt (wall - 86400) = before
    have := h.offsetAt_bounds (wall - 86400)
    have := h.offsetAt_bounds (wall - before)
    by_contra hearlier
    -- the clocks were put back, so the later offset shows the time as well
    obtain ⟨t, ht, ht', -, hafter⟩ := h.change (show wall - 86400 < wall - before by omega)
      (by omega) (by omega)
    have hsame := hafter (wall - table.offsetAt (wall - before)) (by omega) (by omega)
    exact hskips (wall - table.offsetAt (wall - before)) (by omega)

/-- A time that is taken for no later instant than one that the clocks show comes no
later on them. -/
theorem le_of_toUtc_le (h : table.Sparse) {wall wall' : Int} (hwall' : table.zone.Shows wall')
    (hle : table.zone.toUtc wall ≤ table.zone.toUtc wall') : wall ≤ wall' := by
  by_contra hlt
  rw [not_le] at hlt
  have hsame : table.zone.toUtc wall = table.zone.toUtc wall' :=
    hle.antisymm (toUtc_mono h hlt.le hwall')
  have hshown := (toUtc_of_shows hwall').1
  rw [← hsame] at hshown
  exact absurd (hshown ▸ le_fromUtc_toUtc h wall) (not_le.2 hlt)

/-- What an instant shows is taken for the first instant that shows it. -/
theorem isLeast_toUtc_fromUtc (u : Int) :
    IsLeast {v | table.zone.fromUtc v = table.zone.fromUtc u}
      (table.zone.toUtc (table.zone.fromUtc u)) :=
  toUtc_of_shows ⟨u, rfl⟩

/-- **A time comes no later on the clocks than what an instant shows** if it is taken for
an instant no later than the first that shows it; the others are skipped. -/
theorem le_fromUtc_iff (h : table.Sparse) {wall u : Int} :
    wall ≤ table.zone.fromUtc u ↔
      table.zone.toUtc wall ≤ table.zone.toUtc (table.zone.fromUtc u) ∨
        ¬ table.zone.Shows wall ∧ wall ≤ table.zone.fromUtc u := by
  constructor
  · intro hle
    by_cases hshown : table.zone.Shows wall
    · exact Or.inl (toUtc_mono h hle hshown)
    · exact Or.inr ⟨hshown, hle⟩
  · rintro (hle | ⟨-, hle⟩)
    · exact le_of_toUtc_le h ⟨u, rfl⟩ hle
    · exact hle

/-- The clocks are never a day away from UTC. -/
theorem Sparse.fromUtc_bounds (h : table.Sparse) (u : Int) :
    u - 50400 ≤ table.zone.fromUtc u ∧ table.zone.fromUtc u ≤ u + 50400 := by
  have := h.offsetAt_bounds u
  rw [h.fromUtc]
  omega

end TransitionTable

/-! ### Candidates within the bound -/

/-- What lies within two days of a moment in reach lies before the calendar's last day. -/
theorem Moment.InReach.before_end {m : Moment} (h : m.InReach) {u v : Int}
    (hu : m.seconds? = some u) (hlow : u - 172800 ≤ v) (hhigh : v ≤ u + 172800) :
    InCalendar v ∧ v < lastDay * daySeconds := by
  have hbounds := seconds_bounds hu
  have hin := days_inside h.valid.1 h.year.1 h.year.2
  simp only [daySeconds] at hbounds ⊢
  refine ⟨inCalendar_of_near h ?_ ?_, by omega⟩ <;> simp only [daySeconds] <;> omega

namespace Stamp

variable {c : Stamp}

theorem le_ofSeconds_iff (hc : c.IsValid) {s : Int} (hs : Moment.InCalendar s) :
    c.toMoment false ≤ .ofSeconds s ↔ c.wall ≤ s := by
  rw [← not_lt, Moment.ofSeconds_lt_iff hs (toMoment_isValid hc false), not_lt]
  rfl

/-- The midnight that ends the calendar has no seconds. -/
theorem seconds_of_end (hc : c.IsValid) (hend : ¬ (c.hour = 24 → c.date.days < lastDay)) :
    (c.toMoment false).seconds? = none ∧ lastDay * Moment.daySeconds ≤ c.wall := by
  obtain ⟨hhour, hlast⟩ := Classical.not_imp.1 hend
  have hdaytime := Moment.daytime_bounds (toMoment_isValid hc false)
  refine ⟨?_, ?_⟩
  · simp [Moment.seconds?, toMoment, TimeOfDay.of, hhour, hlast]
  · simp only [wall, Moment.daySeconds] at hdaytime ⊢
    omega

end Stamp

namespace RuleSource

variable {s : RuleSource} {table : TransitionTable} {bound : Moment} {u : Int} {c : Stamp}

/-- **Which candidates lie within a bound in UTC**: those whose instants come no later
than the first one that shows what the bound shows, and those that the clocks skip
before they show it. -/
theorem within_iff (hz : table.Sparse) (hzone : s.zone = table.zone) (htime : s.dateOnly = false)
    (hbound : bound.InReach) (hboundTime : bound.hasTime = true) (hu : bound.seconds? = some u)
    (hc : c.IsValid) :
    s.within (table.zone.utcToLocal bound) c = true ↔
      s.instant c ≤ .ofSeconds (table.zone.toUtc (table.zone.fromUtc u)) ∨
        table.zone.Skips (c.toMoment false) ∧ c.toMoment false ≤ table.zone.utcToLocal bound := by
  have hlocal : table.zone.utcToLocal bound = .ofSeconds (table.zone.fromUtc u) := by
    simp [Zone.utcToLocal, hboundTime, hu]
  have hnear := hz.fromUtc_bounds u
  have hnear' := hz.fromUtc_bounds (table.zone.toUtc (table.zone.fromUtc u))
  rw [(TransitionTable.toUtc_of_shows ⟨u, rfl⟩).1] at hnear'
  obtain ⟨hin, hend⟩ := hbound.before_end (v := table.zone.fromUtc u) hu (by omega) (by omega)
  obtain ⟨hin', hend'⟩ := hbound.before_end
    (v := table.zone.toUtc (table.zone.fromUtc u)) hu (by omega) (by omega)
  have hwithin : s.within (table.zone.utcToLocal bound) c = true ↔
      c.wall ≤ table.zone.fromUtc u := by
    rw [← Stamp.le_ofSeconds_iff hc hin, within, htime, Moment.withinBound, hlocal]
    simp [Stamp.toMoment, Moment.hasTime, Moment.ofSeconds]
  rw [hwithin, hlocal, Stamp.le_ofSeconds_iff hc hin, instant, hzone, htime, Zone.localToUtc,
    if_pos (show (c.toMoment false).hasTime = true from rfl)]
  by_cases hlast : c.hour = 24 → c.date.days < lastDay
  · have hseconds := Stamp.seconds_toMoment hc hlast
    have hskips : table.zone.Skips (c.toMoment false) ↔ ¬ table.zone.Shows c.wall := by
      simp [Zone.Skips, hseconds]
    rw [hseconds, Option.map_some, Option.getD_some, Moment.ofSeconds_le_iff, hskips]
    exact TransitionTable.le_fromUtc_iff hz
  · -- it is not converted, and comes after every bound in reach
    obtain ⟨hseconds, hwall⟩ := Stamp.seconds_of_end hc hlast
    rw [hseconds, Option.map_none, Option.getD_none, Stamp.le_ofSeconds_iff hc hin']
    omega

variable {rule : Rule} {start : Moment} {limits : Limits}

/-- **What a bound in UTC leaves of a rule.** The instants of a rule that is bound in UTC
are the first of those that it has without an end: all up to the first instant at which
the clocks show what they show at the bound, and of the later ones those that are read
from a time that the clocks skip before they show it. -/
theorem mem_moments_untilUtc (hr : rule.InRange) (hstart : start.IsValid)
    (htime : start.hasTime = true) (hz : table.Sparse) (hbound : bound.InReach)
    (hboundTime : bound.hasTime = true)
    (hplain : ∀ t ∈ bound.time, t.hour ≤ 23 ∧ t.second ≤ 59) :
    let endless := of { rule with finish := .never } start table.zone limits
    let bounded := of { rule with finish := .untilUtc bound } start table.zone limits
    Source.moments bounded <+: Source.moments endless ∧
    ∃ u first, bound = .ofSeconds u ∧
      IsLeast {v | table.zone.fromUtc v = table.zone.fromUtc u} first ∧
      ∀ v ∈ Source.moments endless, v ∈ Source.moments bounded ↔ v ≤ .ofSeconds first ∨
        ∃ c ∈ endless.origins, endless.instant c = v ∧ table.zone.Skips (c.toMoment false) ∧
          c.toMoment false ≤ table.zone.utcToLocal bound := by
  intro endless bounded
  have hreserve : endless.candidates.reserve = _ := Rule.reserve_candidates _ start limits
  have hasc : endless.candidates.reserve.Pairwise (· < ·) :=
    hreserve ▸ Rule.pairwise_pending _ start limits
  have hvalid : ∀ c ∈ endless.origins, c.IsValid := fun c hc =>
    (Rule.valid_of_mem_pending { hr with } hstart
      (hreserve ▸ endless.origins_sublist.subset hc)).1
  have hbounded : Source.moments bounded =
      (endless.origins.takeWhile (endless.within (table.zone.utcToLocal bound))).map
        endless.instant := by
    rw [← origins_bound endless rfl _ hasc]
    exact moments_eq bounded
  have hcarries : ¬ bound.Carries := by
    rintro ⟨t, ht, hcarries⟩
    have := hplain t ht
    omega
  have hu := Moment.seconds_of_inReach hbound
  generalize bound.date.days * Moment.daySeconds + bound.daytime = u at hu
  refine ⟨?_, u, _, Moment.eq_ofSeconds hboundTime hu hcarries,
    TransitionTable.isLeast_toUtc_fromUtc u, fun v hv => ?_⟩
  · rw [hbounded, moments_eq endless]
    exact (List.takeWhile_prefix _).map _
  · have hwithin : ∀ c ∈ endless.origins, _ := fun c hc =>
      within_iff (s := endless) hz rfl (by simp [endless, of, htime]) hbound hboundTime hu
        (hvalid c hc)
    rw [hbounded, ← filter_within endless _ (hasc.sublist endless.origins_sublist), List.mem_map]
    constructor
    · rintro ⟨c, hc, rfl⟩
      obtain ⟨hc, hin⟩ := List.mem_filter.1 hc
      exact ((hwithin c hc).1 hin).imp_right fun hskips => ⟨c, hc, rfl, hskips⟩
    · rintro (hle | ⟨c, hc, rfl, hskips⟩)
      · rw [moments_eq, List.mem_map] at hv
        obtain ⟨c, hc, rfl⟩ := hv
        exact ⟨c, List.mem_filter.2 ⟨hc, (hwithin c hc).2 (Or.inl hle)⟩, rfl⟩
      · exact ⟨c, List.mem_filter.2 ⟨hc, (hwithin c hc).2 (Or.inr hskips)⟩, rfl⟩

/-- A rule that gives every day up to a bound in UTC. -/
def everyDayUntil (bound : Moment) : Rule :=
  { Rule.every .daily with finish := .untilUtc bound }

theorem mem_moments_untilUtc_summerTime :
    let start := Moment.atTime 2007 11 3 1 30 0
    let bound := Moment.atTime 2007 11 4 6 15 0
    let endless := of (Rule.every .daily) start summerTime.zone ⟨10, 2008⟩
    let bounded := of (everyDayUntil bound) start summerTime.zone ⟨10, 2008⟩
    Source.moments bounded <+: Source.moments endless ∧
    ∃ u first, bound = .ofSeconds u ∧
      IsLeast {v | summerTime.zone.fromUtc v = summerTime.zone.fromUtc u} first ∧
      ∀ v ∈ Source.moments endless, v ∈ Source.moments bounded ↔ v ≤ .ofSeconds first ∨
        ∃ c ∈ endless.origins, endless.instant c = v ∧ summerTime.zone.Skips (c.toMoment false) ∧
          c.toMoment false ≤ summerTime.zone.utcToLocal bound :=
  mem_moments_untilUtc (by constructor <;> simp [Rule.every]) (by decide) rfl summerTime_sparse
    ⟨by decide, by decide⟩ rfl (by decide)

/-- **A bound in UTC is not exact.** At 2:00 in November the clocks of New York go back to
1:00, so the bound of 6:15 shows 1:15, as 5:15 does, and 1:30 of the first pass, which is
5:30, is cut off. At 2:00 in March they go to 3:00, so the bound of 7:15 shows 3:15, and
2:30, which they skip, stays in, although it is read as 7:30. -/
theorem untilUtc_not_exact :
    summerTime.Sparse ∧
    (let start := Moment.atTime 2007 11 4 1 30 0
      let bound := Moment.atTime 2007 11 4 6 15 0
      .atTime 2007 11 4 5 30 0 ∈
          Source.moments (of (Rule.every .daily) start summerTime.zone ⟨10, 2008⟩) ∧
        Moment.atTime 2007 11 4 5 30 0 ≤ bound ∧
        .atTime 2007 11 4 5 30 0 ∉
          Source.moments (of (everyDayUntil bound) start summerTime.zone ⟨10, 2008⟩)) ∧
    let start := Moment.atTime 2007 3 11 2 30 0
    let bound := Moment.atTime 2007 3 11 7 15 0
    bound < .atTime 2007 3 11 7 30 0 ∧
      .atTime 2007 3 11 7 30 0 ∈
        Source.moments (of (everyDayUntil bound) start summerTime.zone ⟨10, 2008⟩) :=
  ⟨summerTime_sparse, ⟨by decide +kernel, by decide, by decide +kernel⟩, by decide,
    by decide +kernel⟩

end RuleSource

end Recurrence
