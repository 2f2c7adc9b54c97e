/-
# Clocks that are moved now and then

Where the transitions of a zone lie at least two days apart and its clocks are at
most 14 hours from UTC, at most one transition lies near any time. So the clocks
show a time earlier than another at an earlier instant, with one exception: a time
that they skip is read with the offset before the gap, as the instant that a later
time shows. A time that they do show is never taken for an instant after that of a
later time, be it shown or skipped.

Key definitions: `TransitionTable.Sparse`, `Zone.Shows`, `Zone.Skips`.
Key theorems: `offsetAfter_change`, `TransitionTable.toUtc_of_shows`,
`TransitionTable.toUtc_of_skips`, `TransitionTable.toUtc_mono`.
-/
import Recurrence.Proofs.Zone.Offsets

namespace Recurrence

/-! ### One transition at a time -/

theorem offsetAfter_of_lt {offset : Int} {transitions : List Transition} {u : Int}
    (h : ∀ t ∈ transitions, u < t.start) : offsetAfter offset transitions u = offset := by
  cases transitions with
  | nil => rfl
  | cons t rest => rw [offsetAfter, if_pos (h t List.mem_cons_self)]

/-- **Two offsets in force shortly one after the other** meet at one transition:
the first is in force for a while before it, the second for a while from it on. -/
theorem offsetAfter_change {gap : Int} {offset : Int} {transitions : List Transition}
    (h : transitions.Pairwise fun a b => a.start + gap ≤ b.start) {u u' : Int} (hlt : u < u')
    (hnear : u' < u + gap)
    (hne : offsetAfter offset transitions u ≠ offsetAfter offset transitions u') :
    ∃ t ∈ transitions, u < t.start ∧ t.start ≤ u' ∧
      (∀ v, t.start - gap ≤ v → v < t.start →
        offsetAfter offset transitions v = offsetAfter offset transitions u) ∧
      ∀ v, t.start ≤ v → v < t.start + gap →
        offsetAfter offset transitions v = offsetAfter offset transitions u' := by
  induction transitions generalizing offset with
  | nil => exact absurd rfl hne
  | cons t rest ih =>
    obtain ⟨ht, hrest⟩ := List.pairwise_cons.1 h
    simp only [offsetAfter] at hne ⊢
    by_cases hu' : u' < t.start
    · rw [if_pos (by omega), if_pos hu'] at hne
      exact absurd rfl hne
    by_cases hu : u < t.start
    · have hlater : ∀ v, t.start ≤ v → v < t.start + gap →
          (if v < t.start then offset else offsetAfter t.offset rest v) = t.offset := by
        intro v hv hv'
        rw [if_neg (by omega), offsetAfter_of_lt fun t' ht' => ?_]
        have := ht t' ht'
        omega
      refine ⟨t, List.mem_cons_self, hu, by omega, fun v _ hv => ?_, fun v hv hv' => ?_⟩
      · rw [if_pos hv, if_pos hu]
      · rw [hlater v hv hv', hlater u' (by omega) (by omega)]
    · rw [if_neg hu, if_neg hu'] at hne ⊢
      obtain ⟨t', ht', hut', htu', hbefore, hafter⟩ := ih hrest hne
      have := ht t' ht'
      refine ⟨t', List.mem_cons_of_mem _ ht', hut', htu', fun v hv hv' => ?_, fun v hv hv' => ?_⟩
      · rw [if_neg (by omega), hbefore v hv hv']
      · rw [if_neg (by omega), hafter v hv hv']

/-! ### What the clocks show -/

/-- Whether the clocks of a zone show a time at some instant. -/
def Zone.Shows (zone : Zone) (wall : Int) : Prop :=
  ∃ u, zone.fromUtc u = wall

/-- Whether the clocks of a zone skip a moment. -/
def Zone.Skips (zone : Zone) (m : Moment) : Prop :=
  ∀ wall ∈ m.seconds?, ¬ zone.Shows wall

namespace TransitionTable

/-- Whether transitions lie at least two days apart and no offset exceeds 14
hours. -/
structure Sparse (table : TransitionTable) : Prop where
  apart : table.transitions.Pairwise fun a b => a.start + 172800 ≤ b.start
  small : ∀ o ∈ table.offsets, -50400 ≤ o ∧ o ≤ 50400

variable {table : TransitionTable}

theorem Sparse.ascending (h : table.Sparse) : Ascending table.transitions :=
  h.apart.imp fun hle => by omega

theorem Sparse.fromUtc (h : table.Sparse) (u : Int) :
    table.zone.fromUtc u = u + table.offsetAt u := by
  simp only [zone]
  rw [OffsetTree.offsetAt_ofList _ _ h.ascending]
  rfl

theorem Sparse.offsetAt_bounds (h : table.Sparse) (u : Int) :
    -50400 ≤ table.offsetAt u ∧ table.offsetAt u ≤ 50400 := by
  have hmem := Zone.offsetAt_mem_offsets table u
  rw [OffsetTree.offsetAt_ofList _ _ h.ascending] at hmem
  exact h.small _ hmem

/-- Shortly one after the other, two different offsets meet at one transition. -/
theorem Sparse.change (h : table.Sparse) {u u' : Int} (hlt : u < u') (hnear : u' < u + 172800)
    (hne : table.offsetAt u ≠ table.offsetAt u') : ∃ t, u < t ∧ t ≤ u' ∧
      (∀ v, t - 172800 ≤ v → v < t → table.offsetAt v = table.offsetAt u) ∧
      ∀ v, t ≤ v → v < t + 172800 → table.offsetAt v = table.offsetAt u' := by
  obtain ⟨t, -, hchange⟩ := offsetAfter_change h.apart hlt hnear hne
  exact ⟨t.start, hchange⟩

/-- The instants at which the clocks show a time. -/
theorem mem_instantsAt {wall u : Int} :
    u ∈ instantsAt (OffsetTree.ofList table.first table.transitions).offsetAt table.offsets wall ↔
      table.zone.fromUtc u = wall := by
  simp only [instantsAt, List.mem_filter, List.mem_map, decide_eq_true_eq, zone]
  refine and_iff_right_of_imp fun hu => ⟨_, Zone.offsetAt_mem_offsets table u, ?_⟩
  omega

/-- A time that the clocks show is taken for the first instant at which they
do. -/
theorem toUtc_of_shows {wall : Int} (hwall : table.zone.Shows wall) :
    table.zone.fromUtc (table.zone.toUtc wall) = wall ∧
      ∀ u, table.zone.fromUtc u = wall → table.zone.toUtc wall ≤ u := by
  obtain ⟨u₀, hu₀⟩ := hwall
  have hmem := mem_instantsAt.2 hu₀
  obtain ⟨u, hu⟩ := Option.isSome_iff_exists.1 (List.isSome_min?_of_mem hmem)
  have htoUtc : table.zone.toUtc wall = u := by
    simp only [zone]
    rw [hu, Option.getD_some]
  rw [htoUtc]
  refine ⟨mem_instantsAt.1 (List.min?_mem hu), fun u' hu' => ?_⟩
  exact (List.le_min?_iff hu).1 (le_refl u) u' (mem_instantsAt.2 hu')

/-- A time that the clocks skip is read with the offset a day before it. -/
theorem toUtc_of_skips (h : table.Sparse) {wall : Int} (hwall : ¬ table.zone.Shows wall) :
    table.zone.toUtc wall = wall - table.offsetAt (wall - 86400) := by
  have hnone : instantsAt (OffsetTree.ofList table.first table.transitions).offsetAt
      table.offsets wall = [] :=
    List.eq_nil_iff_forall_not_mem.2 fun u hu => hwall ⟨u, mem_instantsAt.1 hu⟩
  simp only [zone]
  rw [hnone, OffsetTree.offsetAt_ofList _ _ h.ascending]
  rfl

/-- **A time that the clocks show does not overtake a later one.** -/
theorem toUtc_mono (h : table.Sparse) {wall wall' : Int} (hle : wall ≤ wall')
    (hwall : table.zone.Shows wall) : table.zone.toUtc wall ≤ table.zone.toUtc wall' := by
  obtain ⟨hshown, hfirst⟩ := toUtc_of_shows hwall
  have hbounds := h.offsetAt_bounds
  simp only [h.fromUtc] at hshown hfirst
  generalize table.zone.toUtc wall = u at hshown hfirst ⊢
  by_contra hlt
  rw [not_le] at hlt
  by_cases hwall' : table.zone.Shows wall'
  · have hshown' := (toUtc_of_shows hwall').1
    rw [h.fromUtc] at hshown'
    generalize table.zone.toUtc wall' = u' at hshown' hlt
    have := hbounds u
    have := hbounds u'
    -- the clocks were put back in between, and showed the time before that already
    obtain ⟨t, ht, ht', hbefore, -⟩ := h.change hlt (by omega) (by omega)
    have hearlier := hbefore (wall - table.offsetAt u') (by omega) (by omega)
    have := hfirst (wall - table.offsetAt u') (by omega)
    omega
  · rw [toUtc_of_skips h hwall'] at hlt
    have hskips : ∀ v, v + table.offsetAt v ≠ wall' := fun v hv =>
      hwall' ⟨v, (h.fromUtc v).trans hv⟩
    have := hbounds u
    have := hbounds (wall' - 86400)
    -- one of the offsets on both sides of the transition shows the later time
    obtain ⟨t, ht, ht', hbefore, hafter⟩ :=
      h.change (show wall' - 86400 < u by omega) (by omega) (by omega)
    by_cases hgap : wall' - table.offsetAt (wall' - 86400) < t
    · have hsame := hbefore (wall' - table.offsetAt (wall' - 86400)) (by omega) hgap
      exact hskips (wall' - table.offsetAt (wall' - 86400)) (by omega)
    · have hsame := hafter (wall' - table.offsetAt u) (by omega) (by omega)
      exact hskips (wall' - table.offsetAt u) (by omega)

end TransitionTable

end Recurrence
