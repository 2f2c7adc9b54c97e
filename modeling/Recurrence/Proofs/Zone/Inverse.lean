/-
# Reading clocks and setting them

Times are read off the clocks of a zone and taken for instants again. Where transitions
lie at least two days apart, no time is shown by more than two instants, and none is
skipped by more than one transition. A time is taken for the first instant that shows it;
one that is skipped is read with the offset in force just before the transition that skips
it. So a time that is shown comes back, and so does an instant, unless it is the later of
two that show the same.

Key definitions: `Zone.Converts`.
Key theorems: `TransitionTable.SkipsAt.unique`, `TransitionTable.eq_or_eq_of_shows`,
`TransitionTable.toUtc_inverts`.
-/
import Recurrence.Proofs.Zone.Returns

namespace Recurrence

open Calendar

/-- Whether a zone converts a date-time both ways as it converts the seconds that the
date-time stands for, without leaving the calendar. -/
structure Zone.Converts (zone : Zone) (m : Moment) (s : Int) : Prop where
  seconds : m.seconds? = some s
  localToUtc : zone.localToUtc m = .ofSeconds (zone.toUtc s)
  localToUtc_seconds : (zone.localToUtc m).seconds? = some (zone.toUtc s)
  utcToLocal : zone.utcToLocal m = .ofSeconds (zone.fromUtc s)
  utcToLocal_seconds : (zone.utcToLocal m).seconds? = some (zone.fromUtc s)

namespace TransitionTable

variable {table : TransitionTable} {t t' : Transition} {wall u v w : Int}

/-! ### Times that are skipped -/

/-- No two transitions begin at the same instant. -/
theorem Sparse.eq_of_start_eq (h : table.Sparse) (ht : t ∈ table.transitions)
    (ht' : t' ∈ table.transitions) (hstart : t.start = t'.start) : t = t' := by
  have hapart := List.pairwise_iff_getElem.1 h.apart
  obtain ⟨i, hi, rfl⟩ := List.getElem_of_mem ht
  obtain ⟨j, hj, rfl⟩ := List.getElem_of_mem ht'
  rcases lt_trichotomy i j with hij | rfl | hij
  · have := hapart i j hi hj hij
    omega
  · rfl
  · have := hapart j i hj hi hij
    omega

/-- **A time is skipped by one transition at most.** -/
theorem SkipsAt.unique (h : table.Sparse) (ht : t ∈ table.transitions)
    (ht' : t' ∈ table.transitions) (hs : table.SkipsAt t.start wall)
    (hs' : table.SkipsAt t'.start wall) : t' = t := by
  apply h.eq_of_start_eq ht' ht
  obtain ⟨hreached, hpast⟩ := hs
  obtain ⟨hreached', hpast'⟩ := hs'
  have := h.offsetAt_bounds t.start
  have := h.offsetAt_bounds (t.start - 1)
  have := h.offsetAt_bounds t'.start
  have := h.offsetAt_bounds (t'.start - 1)
  -- both begin within 14 hours of the time, and others lie two days apart
  by_contra hne
  rcases lt_or_gt_of_ne hne with hlt | hlt
  · have := h.apart_of_mem ht' ht hlt
    omega
  · have := h.apart_of_mem ht ht' hlt
    omega

/-- A time that is skipped is read with the offset in force before the one transition
that skips it. -/
theorem exists_skipsAt (h : table.Sparse) (hwall : ¬ table.zone.Shows wall) :
    ∃ t ∈ table.transitions, table.SkipsAt t.start wall ∧
      (∀ t' ∈ table.transitions, table.SkipsAt t'.start wall → t' = t) ∧
      table.zone.toUtc wall = wall - table.offsetAt (t.start - 1) := by
  obtain ⟨t, ht, hs⟩ := (not_shows_iff h).1 hwall
  exact ⟨t, ht, hs, fun t' ht' hs' => hs.unique h ht ht' hs', hs.toUtc h ht⟩

/-- **The times that come back are those that no transition skips.** -/
theorem fromUtc_toUtc_iff (h : table.Sparse) :
    table.zone.fromUtc (table.zone.toUtc wall) = wall ↔
      ∀ t ∈ table.transitions, ¬ table.SkipsAt t.start wall := by
  constructor
  · intro hsame t ht hs
    exact hs.not_shows h ht ⟨_, hsame⟩
  · intro hnone
    have hwall : table.zone.Shows wall := by
      by_contra hskips
      obtain ⟨t, ht, hs⟩ := (not_shows_iff h).1 hskips
      exact hnone t ht hs
    exact (toUtc_of_shows hwall).1

/-! ### Times that are shown twice -/

/-- Of three instants in a row, the clocks show the same at two at most. -/
theorem not_shows_thrice (h : table.Sparse) (huv : u < v) (hvw : v < w)
    (hsame : table.zone.fromUtc u = table.zone.fromUtc v) :
    table.zone.fromUtc v ≠ table.zone.fromUtc w := by
  intro hsame'
  simp only [h.fromUtc] at hsame hsame'
  have := h.offsetAt_bounds u
  have := h.offsetAt_bounds w
  -- the clocks were put back between the first two, and stay so until after the third
  obtain ⟨t, hut, htv, -, hafter⟩ := h.change huv (by omega) (by omega)
  have := hafter w (by omega) (by omega)
  omega

/-- **No time is shown by a third instant.** -/
theorem eq_or_eq_of_shows (h : table.Sparse) (hlt : v < u)
    (hsame : table.zone.fromUtc v = table.zone.fromUtc u)
    (hw : table.zone.fromUtc w = table.zone.fromUtc u) : w = v ∨ w = u := by
  by_contra hother
  rw [not_or] at hother
  by_cases hwv : w < v
  · exact not_shows_thrice h hwv hlt (hw.trans hsame.symm) hsame
  by_cases hwu : w < u
  · exact not_shows_thrice h (by omega) hwu (hsame.trans hw.symm) hw
  · exact not_shows_thrice h hlt (by omega) hsame hw.symm

/-- **The instants that do not come back** are the later ones of two that show the same. -/
theorem toUtc_fromUtc_lt_iff (h : table.Sparse) :
    table.zone.toUtc (table.zone.fromUtc u) < u ↔
      ∃ v < u, ∀ w, table.zone.fromUtc w = table.zone.fromUtc u ↔ w = v ∨ w = u := by
  have hleast : IsLeast {v | table.zone.fromUtc v = table.zone.fromUtc u}
      (table.zone.toUtc (table.zone.fromUtc u)) := isLeast_toUtc_fromUtc u
  obtain ⟨hsame, hfirst⟩ := hleast
  constructor
  · intro hlt
    refine ⟨_, hlt, fun w => ⟨eq_or_eq_of_shows h hlt hsame, ?_⟩⟩
    rintro (rfl | rfl)
    · exact hsame
    · rfl
  · rintro ⟨v, hlt, hshow⟩
    have hv : table.zone.fromUtc v = table.zone.fromUtc u := (hshow v).2 (Or.inl rfl)
    exact (hfirst hv).trans_lt hlt

/-! ### Date-times -/

/-- What a time is taken for is never a day away from it. -/
theorem Sparse.toUtc_bounds (h : table.Sparse) (wall : Int) :
    wall - 50400 ≤ table.zone.toUtc wall ∧ table.zone.toUtc wall ≤ wall + 50400 := by
  obtain ⟨o, ho, hutc⟩ := (Zone.HasOffsets.table table).toUtc wall
  have := h.small o ho
  omega

/-- Date-times far from the ends of the calendar are converted as their seconds are. -/
theorem Sparse.converts (h : table.Sparse) {m : Moment} (hm : m.InReach)
    (ht : m.hasTime = true) : ∃ s, table.zone.Converts m s := by
  have hs := Moment.seconds_of_inReach hm
  generalize m.date.days * Moment.daySeconds + m.daytime = s at hs
  have hbounds := h.toUtc_bounds s
  have hin := (hm.before_end hs (v := table.zone.toUtc s) (by omega) (by omega)).1
  have hutc : table.zone.localToUtc m = .ofSeconds (table.zone.toUtc s) := by
    rw [Zone.localToUtc, if_pos ht, hs]
    rfl
  obtain ⟨hlocal, hseconds⟩ := h.utcToLocal_eq hm ht hs
  exact ⟨s, hs, hutc, hutc ▸ Moment.seconds_ofSeconds hin, hlocal, hlocal ▸ hseconds⟩

/-! ### Both ways -/

/-- **Reading the clocks undoes setting them wherever it can.** A time is taken for the
earliest instant that shows it if there is one, and is otherwise read with the offset in
force just before the transition that skips it. So it comes back unless it is skipped, and
an instant comes back as itself or, if it is the later of two that show the same, as an
earlier one. Date-times of the years 1 to 9998 are converted in just this way. -/
theorem toUtc_inverts (h : table.Sparse) :
    (∀ wall, table.zone.Shows wall →
      IsLeast {u | table.zone.fromUtc u = wall} (table.zone.toUtc wall)) ∧
    (∀ wall, ¬ table.zone.Shows wall → ∃ t ∈ table.transitions, table.SkipsAt t.start wall ∧
      (∀ t' ∈ table.transitions, table.SkipsAt t'.start wall → t' = t) ∧
      table.zone.toUtc wall = wall - table.offsetAt (t.start - 1)) ∧
    (∀ wall, table.zone.fromUtc (table.zone.toUtc wall) = wall ↔
      ∀ t ∈ table.transitions, ¬ table.SkipsAt t.start wall) ∧
    (∀ u, table.zone.toUtc (table.zone.fromUtc u) ≤ u ∧
      (table.zone.toUtc (table.zone.fromUtc u) < u ↔
        ∃ v < u, ∀ w, table.zone.fromUtc w = table.zone.fromUtc u ↔ w = v ∨ w = u)) ∧
    ∀ m : Moment, m.IsValid → m.hasTime = true → 1 ≤ m.date.year → m.date.year ≤ 9998 →
      ∃ s, table.zone.Converts m s := by
  refine ⟨?_, ?_, ?_, ?_, ?_⟩
  · intro wall hwall
    exact toUtc_of_shows hwall
  · intro wall hwall
    exact exists_skipsAt h hwall
  · intro wall
    exact fromUtc_toUtc_iff h
  · intro u
    exact ⟨(isLeast_toUtc_fromUtc u).2 rfl, toUtc_fromUtc_lt_iff h⟩
  · intro m hm ht hlow hhigh
    exact h.converts ⟨hm, by omega, by omega⟩ ht

open RuleSource (summerTime summerTime_sparse)

/-- At 2:00 in March 2007 the clocks of New York go to 3:00, and at 2:00 in November back
to 1:00: half past two is skipped in March and read five hours on, and the second pass of
half past one in November comes back an hour earlier. -/
theorem toUtc_inverts_summerTime :
    summerTime.Sparse ∧
      (¬ summerTime.zone.Shows 1173580200 ∧
        ∃ t ∈ summerTime.transitions, summerTime.SkipsAt t.start 1173580200 ∧
          (∀ t' ∈ summerTime.transitions, summerTime.SkipsAt t'.start 1173580200 → t' = t) ∧
          summerTime.zone.toUtc 1173580200 = 1173580200 - summerTime.offsetAt (t.start - 1)) ∧
      (summerTime.zone.toUtc (summerTime.zone.fromUtc 1194157800) < 1194157800 ∧
        ∃ v < 1194157800, ∀ w, summerTime.zone.fromUtc w = summerTime.zone.fromUtc 1194157800 ↔
          w = v ∨ w = 1194157800) ∧
      ∃ s, summerTime.zone.Converts (.atTime 2007 11 4 6 30 0) s := by
  obtain ⟨-, hskipped, hshown, hinstants, hmoments⟩ := toUtc_inverts summerTime_sparse
  have hskips : ¬ summerTime.zone.Shows 1173580200 := fun hwall =>
    absurd ((hshown 1173580200).1 (toUtc_of_shows hwall).1) (by decide)
  have hearlier : summerTime.zone.toUtc (summerTime.zone.fromUtc 1194157800) < 1194157800 := by
    decide +kernel
  exact ⟨summerTime_sparse, ⟨hskips, hskipped _ hskips⟩,
    ⟨hearlier, (hinstants 1194157800).2.1 hearlier⟩,
    hmoments _ (by decide) rfl (by decide) (by decide)⟩

end TransitionTable

end Recurrence
