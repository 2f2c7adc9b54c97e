/-
# Times that clocks skip

When clocks are put forward, the times between the two readings are never shown.
Where transitions lie at least two days apart, these are all the times that are not
shown. Such a time is read with the offset before the transition, as an instant
behind it, at which the clocks show a time as much later as they were put forward.

Key definitions: `TransitionTable.shiftAt`, `TransitionTable.SkipsAt`.
Key theorems: `TransitionTable.not_shows_iff`, `TransitionTable.SkipsAt.fromUtc_toUtc`.
-/
import Recurrence.Proofs.Zone.Clocks

namespace Recurrence

namespace TransitionTable

/-- How far the clocks are put forward at an instant, in seconds. -/
def shiftAt (table : TransitionTable) (t : Int) : Int :=
  table.offsetAt t - table.offsetAt (t - 1)

/-- Whether the clocks skip a time at an instant: before it they have not come to
the time yet, and from the instant on they are past it. -/
def SkipsAt (table : TransitionTable) (t wall : Int) : Prop :=
  t + table.offsetAt (t - 1) ≤ wall ∧ wall < t + table.offsetAt t

instance (table : TransitionTable) (t wall : Int) : Decidable (table.SkipsAt t wall) :=
  inferInstanceAs (Decidable (_ ∧ _))

variable {table : TransitionTable} {t : Transition} {wall : Int}

/-! ### The offsets around a transition -/

theorem Sparse.apart_of_mem (h : table.Sparse) {t t' : Transition} (ht : t ∈ table.transitions)
    (ht' : t' ∈ table.transitions) (hlt : t.start < t'.start) : t.start + 172800 ≤ t'.start := by
  have hapart := List.pairwise_iff_getElem.1 h.apart
  obtain ⟨i, hi, rfl⟩ := List.getElem_of_mem ht
  obtain ⟨j, hj, rfl⟩ := List.getElem_of_mem ht'
  rcases lt_trichotomy i j with hij | rfl | hij
  · exact hapart i j hi hj hij
  · omega
  · have := hapart j i hj hi hij
    omega

/-- Shortly one after the other, two different offsets meet at one of the
transitions. -/
theorem Sparse.exists_transition (h : table.Sparse) {u u' : Int} (hlt : u < u')
    (hnear : u' < u + 172800) (hne : table.offsetAt u ≠ table.offsetAt u') :
    ∃ t ∈ table.transitions, u < t.start ∧ t.start ≤ u' ∧
      (∀ v, t.start - 172800 ≤ v → v < t.start → table.offsetAt v = table.offsetAt u) ∧
      ∀ v, t.start ≤ v → v < t.start + 172800 → table.offsetAt v = table.offsetAt u' :=
  offsetAfter_change h.apart hlt hnear hne

/-- An offset is in force for at least two days before the next transition. -/
theorem Sparse.offsetAt_before (h : table.Sparse) (ht : t ∈ table.transitions) {v : Int}
    (hv : t.start - 172800 ≤ v) (hlt : v < t.start) :
    table.offsetAt v = table.offsetAt (t.start - 1) := by
  rcases (show v ≤ t.start - 1 by omega).eq_or_lt with rfl | hlt'
  · rfl
  by_contra hne
  obtain ⟨t', ht', hvt', htt', -⟩ := h.exists_transition hlt' (by omega) hne
  have := h.apart_of_mem ht' ht (by omega)
  omega

/-- An offset stays in force for at least two days. -/
theorem Sparse.offsetAt_from (h : table.Sparse) (ht : t ∈ table.transitions) {v : Int}
    (hle : t.start ≤ v) (hv : v < t.start + 172800) :
    table.offsetAt v = table.offsetAt t.start := by
  rcases hle.eq_or_lt with rfl | hlt
  · rfl
  by_contra hne
  obtain ⟨t', ht', htt', hvt', -⟩ := h.exists_transition hlt hv (Ne.symm hne)
  have := h.apart_of_mem ht ht' htt'
  omega

/-! ### Skipped times -/

theorem SkipsAt.not_shows (hs : table.SkipsAt t.start wall) (h : table.Sparse)
    (ht : t ∈ table.transitions) : ¬ table.zone.Shows wall := by
  rintro ⟨v, hv⟩
  rw [h.fromUtc] at hv
  obtain ⟨hreached, hpast⟩ := hs
  have := h.offsetAt_bounds v
  have := h.offsetAt_bounds t.start
  have := h.offsetAt_bounds (t.start - 1)
  rcases lt_or_ge v t.start with hlt | hge
  · have := h.offsetAt_before ht (v := v) (by omega) hlt
    omega
  · have := h.offsetAt_from ht hge (by omega)
    omega

/-- **The clocks show all times but those that a transition skips.** -/
theorem not_shows_iff (h : table.Sparse) :
    ¬ table.zone.Shows wall ↔ ∃ t ∈ table.transitions, table.SkipsAt t.start wall := by
  refine ⟨fun hskips => ?_, fun ⟨t, ht, hs⟩ => hs.not_shows h ht⟩
  have hshown : ∀ v, v + table.offsetAt v ≠ wall := fun v hv => hskips ⟨v, (h.fromUtc v).trans hv⟩
  have hbefore := h.offsetAt_bounds (wall - 86400)
  -- read with the offset a day before, it would be shown unless that offset changes
  obtain ⟨t, ht, hlt, hle, hearlier, hlater⟩ :=
    h.exists_transition (show wall - 86400 < wall - table.offsetAt (wall - 86400) by omega)
      (by omega) fun heq => by
        have := hshown (wall - table.offsetAt (wall - 86400))
        omega
  have hbounds := h.offsetAt_bounds t.start
  have hlast := hearlier (t.start - 1) (by omega) (by omega)
  refine ⟨t, ht, by omega, ?_⟩
  by_contra hge
  have hnext := hlater t.start (by omega) (by omega)
  have hlater := hlater (wall - table.offsetAt t.start) (by omega) (by omega)
  have := hshown (wall - table.offsetAt t.start)
  omega

theorem SkipsAt.toUtc (hs : table.SkipsAt t.start wall) (h : table.Sparse)
    (ht : t ∈ table.transitions) :
    table.zone.toUtc wall = wall - table.offsetAt (t.start - 1) := by
  have := h.offsetAt_bounds t.start
  have := h.offsetAt_bounds (t.start - 1)
  obtain ⟨hreached, hpast⟩ := id hs
  rw [toUtc_of_skips h (hs.not_shows h ht),
    h.offsetAt_before ht (v := wall - 86400) (by omega) (by omega)]

/-- **A skipped time is moved forward by the length of the gap.** -/
theorem SkipsAt.fromUtc_toUtc (hs : table.SkipsAt t.start wall) (h : table.Sparse)
    (ht : t ∈ table.transitions) :
    table.zone.fromUtc (table.zone.toUtc wall) = wall + table.shiftAt t.start := by
  have := h.offsetAt_bounds t.start
  have := h.offsetAt_bounds (t.start - 1)
  obtain ⟨hreached, hpast⟩ := id hs
  have hfrom := h.offsetAt_from ht (v := wall - table.offsetAt (t.start - 1)) (by omega) (by omega)
  rw [hs.toUtc h ht, h.fromUtc, hfrom, shiftAt]
  omega

end TransitionTable

end Recurrence
