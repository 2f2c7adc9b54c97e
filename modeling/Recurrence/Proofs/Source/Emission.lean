/-
# The instants of a rule as a list

From a list of candidates a rule takes the instants that are new, up to its
bound and its count (`RuleSource.emitted`). Without a count an instant is among
them exactly if the first candidate that is not before it gives it, so the
instants ascend and a candidate that is passed over does not change the later
ones. A source of a rule produces these instants one by one.

Key definitions: `RuleSource.instant`, `RuleSource.emitted`, `RuleSource.Gives`,
`RuleSource.SameRule`, `Source.moments`.
Key theorems: `RuleSource.pairwise_emitted`, `RuleSource.mem_emitted`,
`RuleSource.produceFrom_some`, `RuleSource.produceFrom_emitted`.
-/
import Recurrence.Proofs.Expansion.Positions
import Recurrence.Proofs.Source.Queries
import Recurrence.Source.Rule

namespace Recurrence

/-- The moments that a source produces until it has no more. -/
def Source.moments {σ : Type} [Source σ] (s : σ) : List Moment :=
  match _step : Source.produce s with
  | some (m, s') => m :: moments s'
  | none => []
termination_by Source.size s
decreasing_by exact Source.size_produce _step

theorem Source.moments_none {σ : Type} [Source σ] {s : σ} (h : Source.produce s = none) :
    Source.moments s = [] := by
  unfold Source.moments
  split
  · rename_i heq
    rw [h] at heq
    exact absurd heq (by simp)
  · rfl

theorem Source.moments_some {σ : Type} [Source σ] {s s' : σ} {m : Moment}
    (h : Source.produce s = some (m, s')) : Source.moments s = m :: Source.moments s' := by
  conv => lhs; unfold Source.moments
  split
  · rename_i heq
    rw [h] at heq
    obtain ⟨rfl, rfl⟩ := Prod.mk.inj (Option.some.inj heq)
    rfl
  · rename_i heq
    rw [h] at heq
    exact absurd heq (by simp)

theorem Cursor.Yields.moments_eq {σ : Type} [Source σ] {R : σ → List Moment → Prop}
    (hR : Cursor.Yields R) {s : σ} {l : List Moment} (h : R s l) : Source.moments s = l := by
  induction l generalizing s with
  | nil => exact Source.moments_none (hR.nil h)
  | cons m l ih =>
    obtain ⟨s', hs, hrest⟩ := hR.cons h
    rw [Source.moments_some hs, ih hrest]

/-- Asked again and again, a fresh cursor gives the moments of its source. -/
theorem Cursor.take_idle {σ : Type} [Source σ] (s : σ) (n : Nat) :
    ((Cursor.idle s).take n).1 = (Source.moments s).take n := by
  induction n generalizing s with
  | zero => rfl
  | succ n ih =>
    rw [Cursor.take_succ]
    cases hstep : Source.produce s with
    | none =>
      rw [Source.moments_none hstep]
      simp only [Cursor.next, Cursor.fill, hstep, Cursor.held, List.take_nil]
    | some p =>
      obtain ⟨m, s'⟩ := p
      rw [Source.moments_some hstep, List.take_succ_cons, ← ih]
      simp only [Cursor.next, Cursor.fill, hstep, Cursor.held, Cursor.drop]

/-! ### Candidates as moments -/

theorem Stamp.toMoment_mono {a b : Stamp} (h : a ≤ b) (dateOnly : Bool) :
    a.toMoment dateOnly ≤ b.toMoment dateOnly := by
  rw [← not_lt, Moment.lt_iff]
  rw [Stamp.le_iff] at h
  unfold Stamp.toMoment
  split
  · simp only [Moment.timeLt, Date.lt_iff, Stamp.date, and_false, or_false]
    omega
  · simp only [Moment.timeLt, TimeOfDay.lt_iff, TimeOfDay.of, Date.lt_iff, Stamp.date,
      Date.mk.injEq]
    split <;> split <;> simp only <;> omega

/-- What lies past a bound is followed by nothing within it. -/
theorem Moment.withinBound_of_le {m m' bound : Moment} (h : m ≤ m') (hk : m.hasTime = m'.hasTime)
    (hb : m'.withinBound bound = true) : m.withinBound bound = true := by
  unfold withinBound at hb ⊢
  rw [hk]
  split
  · rename_i hkind
    rw [if_pos hkind, decide_eq_true_eq] at hb
    simpa using h.trans hb
  · rename_i hkind
    rw [if_neg hkind, decide_eq_true_eq] at hb
    have hdates : m.datePart ≤ m'.datePart := by
      rw [← not_lt, lt_iff] at h ⊢
      simp only [datePart, timeLt, and_false, or_false]
      exact fun hlt => h (Or.inl hlt)
    simpa using hdates.trans hb

namespace RuleSource

/-! ### The instants of a list of candidates -/

/-- The instant of a candidate. -/
def instant (s : RuleSource) (candidate : Stamp) : Moment :=
  s.zone.localToUtc (candidate.toMoment s.dateOnly)

/-- The state behind an instant. -/
def after (s : RuleSource) (m : Moment) : RuleSource :=
  { s with remaining := s.remaining.map (· - 1), last := some m }

/-- The instants that a rule takes from a list of candidates. -/
def emitted (s : RuleSource) : List Stamp → List Moment
  | [] => []
  | c :: rest =>
    if s.isPast (c.toMoment s.dateOnly) then []
    else if s.isNew (s.instant c) then
      if s.remaining = some 0 then []
      else s.instant c :: (s.after (s.instant c)).emitted rest
    else s.emitted rest

/-- Whether two sources come from the same expansion, of which they may have
left different parts behind. -/
structure SameRule (s s' : RuleSource) : Prop where
  zone : s'.zone = s.zone
  dateOnly : s'.dateOnly = s.dateOnly
  start : s'.start = s.start
  bound : s'.bound = s.bound
  counted : s'.remaining.isSome = s.remaining.isSome
  selective : s'.candidates.isSelective = s.candidates.isSelective

theorem SameRule.refl (s : RuleSource) : SameRule s s := ⟨rfl, rfl, rfl, rfl, rfl, rfl⟩

theorem SameRule.trans {s s' s'' : RuleSource} (h : SameRule s s') (h' : SameRule s' s'') :
    SameRule s s'' :=
  ⟨h'.zone.trans h.zone, h'.dateOnly.trans h.dateOnly, h'.start.trans h.start,
    h'.bound.trans h.bound, h'.counted.trans h.counted, h'.selective.trans h.selective⟩

/-- What is taken from a list does not depend on the candidates that the source
itself stands before. -/
theorem emitted_candidates (s : RuleSource) (candidates : Candidates) (l : List Stamp) :
    { s with candidates }.emitted l = s.emitted l := by
  induction l generalizing s with
  | nil => rfl
  | cons c l ih =>
    have htail : ({ s with candidates }.after (s.instant c)).emitted l =
        (s.after (s.instant c)).emitted l := ih (s.after (s.instant c))
    unfold emitted
    rw [ih s, show ({ s with candidates } : RuleSource).instant c = s.instant c from rfl, htail]
    rfl

theorem isNew_iff (s : RuleSource) (m : Moment) :
    s.isNew m = true ↔ s.start ≤ m ∧ ∀ last ∈ s.last, last < m := by
  rw [isNew, Bool.and_eq_true, Bool.not_eq_true', decide_eq_false_iff_not, not_lt]
  cases s.last <;> simp

/-- What is new behind an instant comes after it. -/
theorem isNew_after {s : RuleSource} {m : Moment} (hm : s.isNew m = true) (m' : Moment) :
    (s.after m).isNew m' = true ↔ m < m' ∧ s.isNew m' = true := by
  rw [isNew_iff] at hm
  rw [isNew_iff, isNew_iff]
  constructor
  · intro h
    have hlt : m < m' := h.2 m rfl
    exact ⟨hlt, h.1, fun last hlast => (hm.2 last hlast).trans hlt⟩
  · intro h
    refine ⟨h.2.1, fun last hlast => ?_⟩
    rw [← Option.mem_some_iff.1 hlast]
    exact h.1

/-- What is not new lies before everything that is. -/
theorem lt_of_isNew {s : RuleSource} {m m' : Moment} (h : s.isNew m' = true)
    (hold : ¬ s.isNew m = true) : m < m' := by
  rw [isNew_iff] at h hold
  by_contra hge
  have hle : m' ≤ m := not_lt.1 hge
  exact hold ⟨h.1.trans hle, fun last hlast => (h.2 last hlast).trans_le hle⟩

/-- Instants are new when they are taken, and each comes after the one
before it. -/
theorem pairwise_emitted (s : RuleSource) (l : List Stamp) :
    (s.emitted l).Pairwise (· < ·) ∧ ∀ m ∈ s.emitted l, s.isNew m = true := by
  induction l generalizing s with
  | nil => exact ⟨List.Pairwise.nil, fun _ h => absurd h List.not_mem_nil⟩
  | cons c l ih =>
    unfold emitted
    split_ifs with hpast hnew hspent
    · exact ⟨List.Pairwise.nil, fun _ h => absurd h List.not_mem_nil⟩
    · exact ⟨List.Pairwise.nil, fun _ h => absurd h List.not_mem_nil⟩
    · obtain ⟨hpairwise, hall⟩ := ih (s.after (s.instant c))
      have hlater : ∀ m ∈ (s.after (s.instant c)).emitted l,
          s.instant c < m ∧ s.isNew m = true := by
        intro m hm
        exact (isNew_after hnew m).1 (hall m hm)
      refine ⟨List.pairwise_cons.2 ⟨fun m hm => (hlater m hm).1, hpairwise⟩, fun m hm => ?_⟩
      rcases List.mem_cons.1 hm with rfl | hm
      · exact hnew
      · exact (hlater m hm).2
    · exact ih s

/-- Past the bound no candidate lies within it. -/
theorem isPast_mono {s : RuleSource} {a b : Stamp} (h : a ≤ b)
    (hpast : s.isPast (a.toMoment s.dateOnly) = true) :
    s.isPast (b.toMoment s.dateOnly) = true := by
  have hkind : (a.toMoment s.dateOnly).hasTime = (b.toMoment s.dateOnly).hasTime := by
    unfold Stamp.toMoment
    split <;> rfl
  simp only [isPast, Option.any_eq_true, Bool.not_eq_true'] at hpast ⊢
  obtain ⟨bound, hbound, hpast⟩ := hpast
  refine ⟨bound, hbound, ?_⟩
  by_contra hwithin
  rw [Bool.not_eq_false] at hwithin
  rw [Moment.withinBound_of_le (Stamp.toMoment_mono h _) hkind hwithin] at hpast
  exact absurd hpast (by simp)

/-- Whether a candidate of a list is the first whose instant is not before a new
instant, and gives it within the bound. -/
def Gives (s : RuleSource) (l : List Stamp) (m : Moment) (c : Stamp) : Prop :=
  s.isPast (c.toMoment s.dateOnly) = false ∧ s.instant c = m ∧ s.isNew m = true ∧
    ∀ x ∈ l, x < c → s.instant x < m

/-- **Without a count, the first candidate that is not before an instant tells
whether it is taken.** -/
theorem mem_emitted {s : RuleSource} (hcount : s.remaining = none) {l : List Stamp}
    (hl : l.Pairwise (· < ·)) (m : Moment) : m ∈ s.emitted l ↔ ∃ c ∈ l, s.Gives l m c := by
  induction l generalizing s with
  | nil => simp [emitted]
  | cons c l ih =>
    obtain ⟨hc, hl⟩ := List.pairwise_cons.1 hl
    have hfirst : ∀ x ∈ c :: l, ¬ x < c := by
      intro x hx
      rcases List.mem_cons.1 hx with rfl | hx
      · exact lt_irrefl _
      · exact (hc x hx).not_gt
    unfold emitted
    split_ifs with hpast hnew hspent
    · -- the bound excludes all that follow
      simp only [List.not_mem_nil, false_iff]
      intro ⟨x, hx, hwithin, _⟩
      have := isPast_mono (not_lt.1 (hfirst x hx)) hpast
      rw [this] at hwithin
      exact absurd hwithin (by simp)
    · exact absurd hspent (by simp [hcount])
    · rw [List.mem_cons, ih (by simp [after, hcount]) hl]
      constructor
      · intro h
        rcases h with rfl | ⟨x, hx, hwithin, hinstant, hm, hbefore⟩
        · exact ⟨c, List.mem_cons_self, by simpa using hpast, rfl, hnew,
            fun x hx hlt => absurd hlt (hfirst x hx)⟩
        · obtain ⟨hlt, hm⟩ := (isNew_after hnew m).1 hm
          exact ⟨x, List.mem_cons_of_mem c hx, hwithin, hinstant, hm,
            List.forall_mem_cons.2 ⟨fun _ => hlt, hbefore⟩⟩
      · intro ⟨x, hx, hwithin, hinstant, hm, hbefore⟩
        obtain ⟨hlt, hbefore⟩ := List.forall_mem_cons.1 hbefore
        rcases List.mem_cons.1 hx with rfl | hx
        · exact Or.inl hinstant.symm
        · exact Or.inr ⟨x, hx, hwithin, hinstant,
            (isNew_after hnew m).2 ⟨hlt (hc x hx), hm⟩, hbefore⟩
    · rw [ih hcount hl]
      constructor
      · intro ⟨x, hx, hwithin, hinstant, hm, hbefore⟩
        exact ⟨x, List.mem_cons_of_mem c hx, hwithin, hinstant, hm,
          List.forall_mem_cons.2 ⟨fun _ => lt_of_isNew hm hnew, hbefore⟩⟩
      · intro ⟨x, hx, hwithin, hinstant, hm, hbefore⟩
        rcases List.mem_cons.1 hx with rfl | hx
        · exact absurd (hinstant ▸ hm) hnew
        · exact ⟨x, hx, hwithin, hinstant, hm, (List.forall_mem_cons.1 hbefore).2⟩

/-- An instant that no earlier candidate passes is taken, from whichever of the
candidates that give it. -/
theorem mem_emitted_of_le {s : RuleSource} (hcount : s.remaining = none) {l : List Stamp}
    (hl : l.Pairwise (· < ·)) {c : Stamp} (hc : c ∈ l)
    (hwithin : s.isPast (c.toMoment s.dateOnly) = false) (hnew : s.isNew (s.instant c) = true)
    (hbefore : ∀ x ∈ l, x < c → s.instant x ≤ s.instant c) : s.instant c ∈ s.emitted l := by
  obtain ⟨c₀, hc₀, heq, hle, hfirst⟩ :=
    AscendingList.exists_first hl (p := fun x => s.instant x = s.instant c) hc rfl
  refine (mem_emitted hcount hl _).2 ⟨c₀, hc₀, ?_, heq, hnew, fun x hx hlt => ?_⟩
  · by_contra hpast
    rw [Bool.not_eq_false] at hpast
    rw [isPast_mono hle hpast] at hwithin
    exact absurd hwithin (by simp)
  · exact lt_of_le_of_ne (hbefore x hx (hlt.trans_le hle)) (hfirst x hx hlt)

/-! ### A source takes the instants one by one -/

theorem isSelective_next (c : Candidates) : c.next.2.isSelective = c.isSelective := by
  unfold Candidates.next
  split <;> rename_i hsel <;> simp [Candidates.isSelective, hsel]

/-- Behind an instant a source still comes from the same expansion, whatever
candidates it stands before. -/
theorem sameRule_after {s : RuleSource} {candidates : Candidates}
    (hsel : candidates.isSelective = s.candidates.isSelective) (m : Moment) :
    SameRule s { s.after m with candidates } :=
  ⟨rfl, rfl, rfl, rfl, by simp [after], hsel⟩

theorem produceFrom_none (s : RuleSource) {candidates : Candidates}
    (h : candidates.next.1 = none) : s.produceFrom candidates = none := by
  unfold produceFrom
  split
  · rfl
  · rename_i heq
    rw [heq] at h
    exact absurd h (by simp)

/-- A source decides on a candidate as `emitted` does. -/
theorem produceFrom_some (s : RuleSource) {candidates : Candidates} {c : Stamp}
    (h : candidates.next.1 = some c) : s.produceFrom candidates =
      if s.isPast (c.toMoment s.dateOnly) then none
      else if s.isNew (s.instant c) then
        if s.remaining = some 0 then none
        else
          some (s.instant c,
            { s.after (s.instant c) with candidates := candidates.next.2.instanceFound })
      else s.produceFrom candidates.next.2 := by
  conv => lhs; unfold produceFrom
  split
  · rename_i heq
    rw [heq] at h
    exact absurd h (by simp)
  · rename_i c' candidates' heq
    rw [heq] at h ⊢
    obtain rfl : c' = c := Option.some.inj h
    simp only [instant, after]
    cases s.remaining with
    | none => rfl
    | some n =>
      cases n with
      | zero => simp [takeOne]
      | succ n => simp [takeOne]

/-- **A source produces the instants of its candidates**, the first one
first. -/
theorem produceFrom_emitted {s : RuleSource} {candidates : Candidates} {l : List Stamp}
    (hl : candidates.Lists l) (hsel : candidates.isSelective = s.candidates.isSelective) :
    (s.emitted l = [] → s.produceFrom candidates = none) ∧
      ∀ m rest, s.emitted l = m :: rest → ∃ s' l', s.produceFrom candidates = some (m, s') ∧
        s'.candidates.Lists l' ∧ l' <:+ l ∧ s'.emitted l' = rest ∧ SameRule s s' := by
  induction l generalizing candidates with
  | nil =>
    refine ⟨fun _ => ?_, fun m rest h => absurd h (by simp [emitted])⟩
    exact s.produceFrom_none hl.next.1
  | cons c l ih =>
    obtain ⟨hhead, htail⟩ := hl.next
    rw [List.tail_cons] at htail
    have hselNext := (isSelective_next candidates).trans hsel
    rw [s.produceFrom_some hhead, emitted]
    by_cases hpast : s.isPast (c.toMoment s.dateOnly) = true
    · rw [if_pos hpast, if_pos hpast]
      exact ⟨fun _ => rfl, fun m rest h => absurd h (by simp)⟩
    rw [if_neg hpast, if_neg hpast]
    by_cases hnew : s.isNew (s.instant c) = true
    · rw [if_pos hnew, if_pos hnew]
      by_cases hspent : s.remaining = some 0
      · rw [if_pos hspent, if_pos hspent]
        exact ⟨fun _ => rfl, fun m rest h => absurd h (by simp)⟩
      · rw [if_neg hspent, if_neg hspent]
        refine ⟨fun h => absurd h (by simp), fun m rest h => ?_⟩
        obtain ⟨rfl, rfl⟩ := List.cons.inj h
        have hselFound : candidates.next.2.instanceFound.isSelective =
          s.candidates.isSelective := hselNext
        exact ⟨_, l, rfl, htail.instanceFound, List.suffix_cons _ _, emitted_candidates _ _ l,
          sameRule_after hselFound _⟩
    · rw [if_neg hnew, if_neg hnew]
      obtain ⟨hnil, hcons⟩ := ih htail hselNext
      refine ⟨hnil, fun m rest h => ?_⟩
      obtain ⟨s', l', hs', hlists, hsuffix, hrest, hsame⟩ := hcons m rest h
      exact ⟨s', l', hs', hlists, hsuffix.trans (List.suffix_cons _ _), hrest, hsame⟩

end RuleSource

end Recurrence
