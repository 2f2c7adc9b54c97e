/-
# Instants that are found again

An instant is shown on the clocks of a zone and what they show is taken for an
instant again. It is the same instant when no earlier one shows the same, and the
same date-time when that does not carry. Every instant that a time on the clocks is
taken for is found again.

Key definitions: `TransitionTable.Returns`.
Key theorems: `TransitionTable.localToUtc_utcToLocal_iff`, `TransitionTable.returns_localToUtc`.
-/
import Recurrence.Proofs.Source.UtcBound
import Recurrence.Proofs.Source.WallClock

namespace Recurrence

open Calendar

namespace TransitionTable

/-- Whether a date-time in UTC is the one that its time on the clocks is taken for: it
does not carry, and the clocks have not shown the same before. -/
structure Returns (table : TransitionTable) (m : Moment) : Prop where
  plain : ¬ m.Carries
  first : ∀ u ∈ m.seconds?, ∀ v < u, table.zone.fromUtc v ≠ table.zone.fromUtc u

variable {table : TransitionTable} {m : Moment} {u : Int}

/-- Transitions lie apart when each lies apart from the next. -/
theorem sparse_of_isChain
    (h : table.transitions.IsChain fun a b => a.start + 172800 ≤ b.start)
    (hsmall : ∀ o ∈ table.offsets, -50400 ≤ o ∧ o ≤ 50400) : table.Sparse := by
  have htrans : IsTrans Transition fun a b => a.start + 172800 ≤ b.start :=
    ⟨fun a b c hab hbc => by omega⟩
  exact ⟨List.isChain_iff_pairwise.1 h, hsmall⟩

/-- A date-time of a year far from the ends of the calendar, on the clocks. -/
theorem Sparse.utcToLocal_eq (hz : table.Sparse) (hm : m.InReach) (ht : m.hasTime = true)
    (hu : m.seconds? = some u) : table.zone.utcToLocal m = .ofSeconds (table.zone.fromUtc u) ∧
      (Moment.ofSeconds (table.zone.fromUtc u)).seconds? = some (table.zone.fromUtc u) := by
  have hbounds := hz.fromUtc_bounds u
  refine ⟨by rw [Zone.utcToLocal, if_pos ht, hu]; rfl, ?_⟩
  exact Moment.seconds_ofSeconds (hm.before_end hu (by omega) (by omega)).1

/-- A date-time that is shown on the clocks is taken for the first instant that shows the
same. -/
theorem localToUtc_utcToLocal (hz : table.Sparse) (hm : m.InReach) (ht : m.hasTime = true)
    (hu : m.seconds? = some u) : table.zone.localToUtc (table.zone.utcToLocal m) =
      .ofSeconds (table.zone.toUtc (table.zone.fromUtc u)) := by
  obtain ⟨hlocal, hseconds⟩ := hz.utcToLocal_eq hm ht hu
  rw [hlocal, Zone.localToUtc, if_pos (show (Moment.ofSeconds _).hasTime = true from rfl),
    hseconds]
  rfl

/-- **Which date-times are the same on the clocks and back in UTC.** -/
theorem localToUtc_utcToLocal_iff (hz : table.Sparse) (hm : m.InReach) (ht : m.hasTime = true) :
    table.zone.localToUtc (table.zone.utcToLocal m) = m ↔ table.Returns m := by
  have hu := Moment.seconds_of_inReach hm
  generalize m.date.days * Moment.daySeconds + m.daytime = u at hu
  obtain ⟨hsame, hleast⟩ := @isLeast_toUtc_fromUtc table u
  rw [localToUtc_utcToLocal hz hm ht hu]
  constructor
  · intro heq
    have hfound : table.zone.toUtc (table.zone.fromUtc u) = u := by
      have hs := Moment.seconds_of_isValid_ofSeconds (heq ▸ hm.valid)
      rw [heq, hu] at hs
      exact (Option.some.inj hs).symm
    refine ⟨heq ▸ Moment.not_carries_ofSeconds _, fun u' hu' v hv hshown => ?_⟩
    obtain rfl := Option.some.inj (hu.symm.trans hu')
    have := hleast hshown
    omega
  · intro h
    have hfound : table.zone.toUtc (table.zone.fromUtc u) = u := by
      refine (hleast rfl).antisymm (not_lt.1 fun hlt => ?_)
      exact h.first u hu _ hlt hsame
    rw [hfound]
    exact (Moment.eq_ofSeconds ht hu h.plain).symm

/-- A date-time that does not carry comes no later when it is shown on the clocks and
taken for an instant again. -/
theorem localToUtc_utcToLocal_le (hz : table.Sparse) (hm : m.InReach) (ht : m.hasTime = true)
    (hplain : ¬ m.Carries) :
    ∃ s, table.zone.localToUtc (table.zone.utcToLocal m) = .ofSeconds s ∧ .ofSeconds s ≤ m := by
  have hu := Moment.seconds_of_inReach hm
  refine ⟨_, localToUtc_utcToLocal hz hm ht hu, ?_⟩
  refine (Moment.ofSeconds_le_iff.2 ?_).trans_eq (Moment.eq_ofSeconds ht hu hplain).symm
  exact (isLeast_toUtc_fromUtc _).2 rfl

/-- No instant before the one that a time is taken for shows the same as that one. -/
theorem first_toUtc (hz : table.Sparse) (wall : Int) {v : Int} (hlt : v < table.zone.toUtc wall) :
    table.zone.fromUtc v ≠ table.zone.fromUtc (table.zone.toUtc wall) := by
  intro hsame
  by_cases hshown : table.zone.Shows wall
  · obtain ⟨hwall, hleast⟩ := toUtc_of_shows hshown
    have := hleast v (hsame.trans hwall)
    omega
  · obtain ⟨t, ht, hskips⟩ := (not_shows_iff hz).1 hshown
    have hutc := hskips.toUtc hz ht
    rw [hskips.fromUtc_toUtc hz ht, hz.fromUtc, shiftAt] at hsame
    obtain ⟨hreached, hpast⟩ := hskips
    have := hz.offsetAt_bounds v
    have := hz.offsetAt_bounds t.start
    have := hz.offsetAt_bounds (t.start - 1)
    -- before the transition the clocks are behind, from it on they show every time once
    rcases lt_or_ge v t.start with hbefore | hafter
    · have := hz.offsetAt_before ht (v := v) (by omega) hbefore
      omega
    · have := hz.offsetAt_from ht hafter (by omega)
      omega

/-- **What a time on the clocks is taken for is found again.** -/
theorem returns_localToUtc (hz : table.Sparse) (hm : m.InReach) (ht : m.hasTime = true) :
    table.Returns (table.zone.localToUtc m) := by
  have hwall := Moment.seconds_of_inReach hm
  generalize m.date.days * Moment.daySeconds + m.daytime = wall at hwall
  obtain ⟨o, ho, hutc⟩ := (Zone.HasOffsets.table table).toUtc wall
  have hsmall := hz.small o ho
  have hseconds : (Moment.ofSeconds (table.zone.toUtc wall)).seconds? =
      some (table.zone.toUtc wall) :=
    Moment.seconds_ofSeconds (hm.before_end hwall (by omega) (by omega)).1
  have hlocal : table.zone.localToUtc m = .ofSeconds (table.zone.toUtc wall) := by
    rw [Zone.localToUtc, if_pos ht, hwall]
    rfl
  rw [hlocal]
  refine ⟨Moment.not_carries_ofSeconds _, fun u hu v hv => ?_⟩
  obtain rfl := Option.some.inj (hseconds.symm.trans hu)
  exact first_toUtc hz wall hv

end TransitionTable

end Recurrence
