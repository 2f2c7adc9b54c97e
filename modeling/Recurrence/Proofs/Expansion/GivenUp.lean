/-
# Walks that are given up

Under another limit a walk may be given up before its end. What it hands out until
then is the beginning of what it hands out otherwise. With positions this needs
more, for a walk that is given up in the middle of a period has the positions pick
from a part of it. Only a week can be cut so, at the end of a year, and positions
that count from the front pick from its beginning the beginning of what they pick
from all of it.

Key definitions: `Candidates.Paced`, `PeriodSelection.Trails`, `Candidates.Trails`.
Key theorems: `atPositions_beginning`, `PeriodSelection.gather_of_withPatience`,
`PeriodSelection.Trails.next`, `Candidates.Trails.next`, `Candidates.Paced.trails`.
-/
import Recurrence.Proofs.Expansion.LastYear
import Recurrence.Proofs.Expansion.Patience

namespace Recurrence

/-- Positions from the front pick from the beginning of a list the beginning of
what they pick from all of it. -/
theorem atPositions_beginning {positions : List Int} (h : ∀ p ∈ positions, 0 < p)
    (first rest : List Stamp) :
    atPositions positions first <+: atPositions positions (first ++ rest) := by
  -- within the beginning no position counts from an end
  have hfront : ∀ n, first.length ≤ n → ∀ x ∈ first.zipIdx,
      (positions.any fun p => p == (x.2 : Int) + 1 || p == (x.2 : Int) - n) =
        positions.any fun p => p == (x.2 : Int) + 1 := by
    intro n hn x hx
    have hlt := List.snd_lt_of_mem_zipIdx hx
    rw [Bool.eq_iff_iff, List.any_eq_true, List.any_eq_true]
    refine exists_congr fun p => and_congr_right fun hp => ?_
    have := h p hp
    simp only [Bool.or_eq_true, beq_iff_eq]
    omega
  rw [atPositions, atPositions, List.zipIdx_append, List.filterMap_append]
  rw [List.filterMap_congr fun x hx => ?_]
  · exact List.prefix_append _ _
  · simp only [hfront _ (Nat.le_refl _) x hx,
      hfront (first ++ rest).length (by rw [List.length_append]; omega) x hx]

namespace Cascade

/-- Under another limit an unhurried walk hands out the same, or it is given up. -/
theorem next_withPatience_or {c : Cascade} (hc : c.Unhurried) (n : Nat) :
    (c.withPatience n).next = (c.next.1, c.next.2.withPatience n) ∨
      ∃ c', (c.withPatience n).next = (none, c') := by
  cases hs : (c.withPatience n).step? with
  | some p =>
    obtain ⟨c', hfound, heq⟩ := step_of_withPatience hc hs
    exact Or.inl (by simp only [next, hs, hfound, heq])
  | none => exact Or.inr ⟨{ c.withPatience n with finished := true }, by simp only [next, hs]⟩

theorem finished_of_next_none {c c' : Cascade} (h : c.next = (none, c')) : c'.finished = true := by
  cases hs : c.step? with
  | some p => simp [next, hs] at h
  | none =>
    simp only [next, hs, Prod.mk.injEq, true_and] at h
    rw [← h]

theorem next_of_finished {c : Cascade} (h : c.finished = true) : c.next.1 = none := by
  simp [next, step?, h]

theorem step_of_next {c c' : Cascade} {found : Stamp} (h : c.next = (some found, c')) :
    c.step? = some (found, c') := by
  cases hs : c.step? with
  | some p =>
    simp only [next, hs, Prod.mk.injEq, Option.some.injEq] at h
    rw [← h.1, ← h.2]
  | none => simp [next, hs] at h

/-- A walk is given up only between two years. -/
theorem mem_years_of_givenUp {c c' c'' : Cascade} {found : Stamp} (hc : c.Ordered) {n : Nat}
    (h : c.next = (some found, c')) (hgiven : (c.withPatience n).next = (none, c'')) :
    found.year ∈ c.years.toList := by
  have hstep := step_of_next h
  unfold step? at hstep
  split at hstep
  · simp at hstep
  · rename_i hfinished
    split at hstep
    · rename_i p hstay
      have hother : (c.withPatience n).step? = some (p.1, p.2.withPatience n) := by
        unfold step?
        rw [if_neg (show ¬ (c.withPatience n).finished = true from hfinished),
          stayInYear_withPatience, hstay]
        rfl
      simp [next, hother] at hgiven
    · exact (years_of_enterYears hc.spans hc.interval hstep).1

/-- The years that are left behind a candidate lie behind its year. -/
theorem Ordered.next {c c' : Cascade} {found : Stamp} (hc : c.Ordered)
    (h : c.next = (some found, c')) :
    c'.Ordered ∧ ∀ y ∈ c'.years.toList, y ∈ c.years.toList ∧ found.year < y := by
  obtain ⟨hordered, -, hyears, -⟩ := hc.step (step_of_next h)
  refine ⟨hordered, fun y hy => ?_⟩
  rw [hyears, List.mem_filter, decide_eq_true_eq] at hy
  exact hy

theorem Ordered.next_none {c c' : Cascade} (hc : c.Ordered) (h : c.next = (none, c')) :
    c'.Ordered ∧ c'.years = c.years := by
  cases hs : c.step? with
  | some p => simp [Cascade.next, hs] at h
  | none =>
    simp only [Cascade.next, hs, Prod.mk.injEq, true_and] at h
    rw [← h]
    exact ⟨⟨hc.spans, hc.interval, hc.current⟩, rfl⟩

end Cascade

namespace PeriodSelection

variable {sel : PeriodSelection} {c : Cascade}

/-- Whether the years to come ascend behind the candidate that waits. -/
structure Ordered (sel : PeriodSelection) (c : Cascade) : Prop where
  walk : c.Ordered
  waiting : ∀ s ∈ sel.waiting, ∀ y ∈ c.years.toList, s.year < y

theorem Ordered.first {s : Stamp} {c' : Cascade} (h : sel.Ordered c)
    (hfirst : sel.first c = (some s, c')) : c'.Ordered ∧ ∀ y ∈ c'.years.toList, s.year < y := by
  unfold PeriodSelection.first at hfirst
  split at hfirst
  · rename_i hwaiting
    obtain ⟨hs, rfl⟩ := Prod.mk.inj hfirst
    exact ⟨h.walk, h.waiting s (hwaiting.trans hs)⟩
  · obtain ⟨hordered, hyears⟩ := h.walk.next hfirst
    exact ⟨hordered, fun y hy => (hyears y hy).2⟩

theorem ordered_gather (sel : PeriodSelection) (start : Stamp) (taken : List Stamp)
    (h : c.Ordered) : (sel.gather start taken c).2.2.Ordered ∧
      ∀ s ∈ (sel.gather start taken c).2.1,
        ∀ y ∈ (sel.gather start taken c).2.2.years.toList, s.year < y := by
  fun_induction gather sel start taken c with
  | case1 taken c s c' hstep hperiod ih => exact ih (h.next hstep).1
  | case2 taken c s c' hstep hperiod =>
    obtain ⟨hordered, hyears⟩ := h.next hstep
    refine ⟨hordered, fun s' hs' y hy => ?_⟩
    obtain rfl := Option.mem_some_iff.1 hs'
    exact (hyears y hy).2
  | case3 taken c c' hstep => exact ⟨(h.next_none hstep).1, fun s hs => by simp at hs⟩

theorem taken_gather (sel : PeriodSelection) (start : Stamp) (taken : List Stamp)
    (c : Cascade) : taken.reverse <+: (sel.gather start taken c).1 := by
  fun_induction gather sel start taken c with
  | case1 taken c s c' hstep hperiod ih =>
    rw [List.reverse_cons] at ih
    exact (List.prefix_append _ _).trans ih
  | case2 => exact List.prefix_rfl
  | case3 => exact List.prefix_rfl

/-- **A walk that is given up has gathered the beginning of a period**, and all of
one that lies within a year. -/
theorem gather_of_withPatience (sel : PeriodSelection) (s : Stamp) (taken : List Stamp)
    (hc : c.Unhurried) (ho : c.Ordered) (hs : ∀ y ∈ c.years.toList, s.year < y) (n : Nat) :
    let start := s.periodStart sel.frequency sel.weekStart
    let whole := sel.gather start taken c
    let part := sel.gather start taken (c.withPatience n)
    part = (whole.1, whole.2.1, whole.2.2.withPatience n) ∨
      (part.1 <+: whole.1 ∧ (sel.frequency ≠ .weekly → part.1 = whole.1) ∧
        part.2.1 = none ∧ part.2.2.finished = true) := by
  intro start
  fun_induction gather sel start taken c with
  | case1 taken c s' c' hstep hperiod ih =>
    obtain ⟨ho', hyears⟩ := ho.next hstep
    have hspends := c.spends_next
    rw [hstep] at hspends
    rcases Cascade.next_withPatience_or hc n with hother | ⟨c'', hother⟩
    · rw [hstep] at hother
      rw [gather_some hother, if_pos hperiod]
      exact ih (hspends.unhurried hc) ho' fun y hy => hs y (hyears y hy).1
    · rw [gather_none hother]
      refine Or.inr ⟨?_, fun hweekly => ?_, rfl, Cascade.finished_of_next_none hother⟩
      · have hbegins := sel.taken_gather start (s' :: taken) c'
        rw [List.reverse_cons] at hbegins
        exact (List.prefix_append _ _).trans hbegins
      · -- the next candidate lies in a later year, so in another period
        have hlater := hs _ (Cascade.mem_years_of_givenUp ho hstep hother)
        have := Stamp.year_eq_of_periodStart_eq hweekly hperiod
        omega
  | case2 taken c s' c' hstep hperiod =>
    rcases Cascade.next_withPatience_or hc n with hother | ⟨c'', hother⟩
    · rw [hstep] at hother
      rw [gather_some hother, if_neg hperiod]
      exact Or.inl rfl
    · rw [gather_none hother]
      exact Or.inr ⟨List.prefix_rfl, fun _ => rfl, rfl, Cascade.finished_of_next_none hother⟩
  | case3 taken c c' hstep =>
    rcases Cascade.next_withPatience_or hc n with hother | ⟨c'', hother⟩
    · rw [hstep] at hother
      rw [gather_none hother]
      exact Or.inl rfl
    · rw [gather_none hother]
      exact Or.inr ⟨List.prefix_rfl, fun _ => rfl, rfl, Cascade.finished_of_next_none hother⟩

/-- Whether no position counts from the end of a period that lies in two years. -/
def FromFront (sel : PeriodSelection) : Prop :=
  sel.frequency = .weekly → ∀ p ∈ sel.positions, 0 < p

theorem Ordered.next (h : sel.Ordered c) (hfront : sel.FromFront) :
    (sel.next c).2.1.Ordered (sel.next c).2.2 ∧ (sel.next c).2.1.FromFront := by
  fun_induction PeriodSelection.next sel c with
  | case1 sel c s selected hselected => exact ⟨⟨h.walk, h.waiting⟩, hfront⟩
  | case2 sel c hselected c' hfirst =>
    refine ⟨?_, hfront⟩
    unfold PeriodSelection.first at hfirst
    split at hfirst
    · simp at hfirst
    · rename_i hwaiting
      exact ⟨(h.walk.next_none hfirst).1, by simp [hwaiting]⟩
  | case3 sel c hselected s c' hfirst start members ih =>
    obtain ⟨hordered, hwaiting⟩ := sel.ordered_gather start [s] (h.first hfirst).1
    exact ih ⟨hordered, hwaiting⟩ hfront

/-- What a selection and its walk have to do with those of another limit: they go
along with them, or are given up and have the beginning of what is selected. -/
inductive Trails (n : Nat) (sel : PeriodSelection) (c : Cascade) : PeriodSelection → Cascade → Prop
  | along (hc : c.Unhurried) (ho : sel.Ordered c) : Trails n sel c sel (c.withPatience n)
  | behind {sel' : PeriodSelection} {c' : Cascade} (hselected : sel'.selected <+: sel.selected)
      (hwaiting : sel'.waiting = none) (hfinished : c'.finished = true) : Trails n sel c sel' c'

theorem first_of_withPatience {n : Nat} {s : Stamp} {c' : Cascade} (hc : c.Unhurried)
    (h : sel.first (c.withPatience n) = (some s, c')) :
    ∃ c'', sel.first c = (some s, c'') ∧ c' = c''.withPatience n := by
  unfold first at h ⊢
  split at h
  · obtain ⟨hs, rfl⟩ := Prod.mk.inj h
    exact ⟨c, by rw [hs], rfl⟩
  · rcases Cascade.next_withPatience_or hc n with hother | ⟨c'', hother⟩
    · obtain ⟨hs, rfl⟩ := Prod.mk.inj (hother.symm.trans h)
      exact ⟨c.next.2, by rw [← hs], rfl⟩
    · exact absurd (Prod.mk.inj (hother.symm.trans h)).1 (by simp)

/-- **What a selection hands out under another limit, it hands out**, as long as no
position counts from an end that the limit may cut off. -/
theorem Trails.next {n : Nat} {sel' sel'' : PeriodSelection} {c' c'' : Cascade} {s : Stamp}
    (h : Trails n sel c sel' c') (hfront : sel.FromFront)
    (hnext : sel'.next c' = (some s, sel'', c'')) :
    ∃ sel₁ c₁, sel.next c = (some s, sel₁, c₁) ∧ sel₁.FromFront ∧ Trails n sel₁ c₁ sel'' c'' := by
  fun_induction PeriodSelection.next sel' c' generalizing sel c with
  | case1 sel' c' s' selected hselected' =>
    simp only [Prod.mk.injEq, Option.some.injEq] at hnext
    obtain ⟨rfl, rfl, rfl⟩ := hnext
    cases h with
    | along hc ho =>
      exact ⟨_, _, next_selected hselected', hfront, .along hc ⟨ho.walk, ho.waiting⟩⟩
    | behind hselected hwaiting hfinished =>
      obtain ⟨rest, hrest⟩ := hselected
      rw [hselected', List.cons_append] at hrest
      exact ⟨_, _, next_selected hrest.symm, hfront,
        .behind (List.prefix_append _ _) hwaiting hfinished⟩
  | case2 => simp at hnext
  | case3 sel' c' hselected' s' c₁ hfirst start =>
    rename_i members ih
    cases h with
    | behind hselected hwaiting hfinished =>
      have hnone : sel'.first c' = c'.next := by unfold first; rw [hwaiting]
      rw [hnone] at hfirst
      exact absurd (congrArg Prod.fst hfirst) (by simp [Cascade.next_of_finished hfinished])
    | along hc ho =>
      obtain ⟨c₂, hfirst₂, rfl⟩ := first_of_withPatience hc hfirst
      obtain ⟨hordered, hyears⟩ := ho.first hfirst₂
      have hspends : c.Spends c₂ := by
        have := sel'.spends_first c
        rwa [hfirst₂] at this
      have hc₂ := hspends.unhurried hc
      rw [next_some hselected' hfirst₂]
      refine ih ?_ hfront hnext
      rcases sel'.gather_of_withPatience s' [s'] hc₂ hordered hyears n with
        hall | ⟨hpart, hwhole, hwaiting, hfinished⟩
      · obtain ⟨hordered', hwaiting'⟩ := sel'.ordered_gather start [s'] hordered
        rw [show members = _ from hall]
        exact .along ((sel'.spends_gather start [s'] c₂).unhurried hc₂) ⟨hordered', hwaiting'⟩
      · refine .behind ?_ hwaiting hfinished
        by_cases hweekly : sel'.frequency = .weekly
        · obtain ⟨rest, hrest⟩ := hpart
          simp only
          rw [← hrest]
          exact atPositions_beginning (hfront hweekly) _ _
        · have hsame := congrArg (atPositions sel'.positions) (hwhole hweekly)
          exact ⟨[], (List.append_nil _).trans hsame⟩

end PeriodSelection

namespace Candidates

variable {c : Candidates}

/-- Whether the years to come do not exhaust the limit, and no position counts from
an end that another limit may cut off. -/
structure Paced (c : Candidates) : Prop where
  unhurried : c.cascade.Unhurried
  selection : ∀ sel ∈ c.selection, sel.Ordered c.cascade ∧ sel.FromFront

theorem paced_of_unhurried (hsel : c.isSelective = false) (h : c.cascade.Unhurried) : c.Paced := by
  rw [isSelective, Option.isSome_eq_false_iff, Option.isNone_iff_eq_none] at hsel
  exact ⟨h, by simp [hsel]⟩

theorem Paced.next (h : c.Paced) : c.next.2.Paced := by
  refine ⟨c.spends_next.unhurried h.unhurried, ?_⟩
  unfold Candidates.next
  split
  · rename_i hsel
    simp [hsel]
  · rename_i sel hsel
    obtain ⟨ho, hfront⟩ := h.selection sel hsel
    intro sel' hsel'
    obtain rfl := Option.mem_some_iff.1 hsel'
    exact ho.next hfront

theorem Paced.instanceFound (h : c.Paced) : c.instanceFound.Paced := by
  refine ⟨h.unhurried.instanceFound, fun sel hsel => ?_⟩
  obtain ⟨ho, hfront⟩ := h.selection sel hsel
  exact ⟨⟨ho.walk.instanceFound, ho.waiting⟩, hfront⟩

/-- What candidates have to do with those of another limit. -/
def Trails (n : Nat) (c c' : Candidates) : Prop :=
  match c.selection with
  | none => c.cascade.Unhurried ∧ c' = c.withPatience n
  | some sel => sel.FromFront ∧
    ∃ sel', c'.selection = some sel' ∧ sel.Trails n c.cascade sel' c'.cascade

/-- **What candidates hand out under another limit, they hand out.** -/
theorem Trails.next {n : Nat} {c' c'' : Candidates} {s : Stamp} (h : c.Trails n c')
    (hnext : c'.next = (some s, c'')) :
    ∃ c₁, c.next = (some s, c₁) ∧ c₁.Trails n c'' := by
  unfold Trails at h
  split at h
  · rename_i hsel
    obtain ⟨hc, rfl⟩ := h
    simp only [withPatience, Candidates.next, hsel] at hnext ⊢
    rcases Cascade.next_withPatience_or hc n with hother | ⟨c₂, hother⟩
    · rw [hother] at hnext
      obtain ⟨hs, rfl⟩ := Prod.mk.inj hnext
      have hspends := c.cascade.spends_next
      refine ⟨_, Prod.ext hs rfl, ?_⟩
      simp only [Trails]
      exact ⟨hspends.unhurried hc, rfl⟩
    · rw [hother] at hnext
      exact absurd (Prod.mk.inj hnext).1 (by simp)
  · rename_i sel hsel
    obtain ⟨hfront, sel', hsel', htrails⟩ := h
    simp only [Candidates.next, hsel'] at hnext
    obtain ⟨hs, rfl⟩ := Prod.mk.inj hnext
    obtain ⟨sel₁, c₁, hfound, hfront₁, htrails₁⟩ :=
      htrails.next hfront (Prod.ext hs rfl : sel'.next c'.cascade = (some s, _))
    refine ⟨⟨c₁, some sel₁⟩, by simp only [Candidates.next, hsel, hfound], ?_⟩
    exact ⟨hfront₁, _, rfl, htrails₁⟩

theorem Paced.trails (h : c.Paced) (n : Nat) : c.Trails n (c.withPatience n) := by
  unfold Trails
  split
  · exact ⟨h.unhurried, rfl⟩
  · rename_i sel hsel
    obtain ⟨ho, hfront⟩ := h.selection sel hsel
    exact ⟨hfront, sel, hsel, .along h.unhurried ho⟩

end Candidates

end Recurrence
