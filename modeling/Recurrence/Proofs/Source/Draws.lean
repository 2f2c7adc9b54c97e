/-
# Where the moments of a rule come from

Whatever its limits are and whatever the cursor of a rule is asked, each moment that
it names is the instant of one of the candidates that its walk had to visit at first.
Producing takes candidates from the reserve, and seeking a date drops some of them;
neither adds any.

Key definitions: `Cursor.Within`, `Cursor.Confines`, `RuleSource.DrawsOn`.
Key theorems: `Cursor.Confines.replies`, `Candidates.reserve_raiseThreshold`,
`RuleSource.exists_of_reply`.
-/
import Recurrence.Proofs.Source.Origins
import Recurrence.Proofs.Source.Seek

namespace Recurrence

/-! ### Moments with a property -/

namespace Cursor

variable {σ : Type} [Source σ] {P : Moment → Prop} {I : σ → Prop} {c : Cursor σ}

/-- Whether the state of a cursor keeps to an invariant and the moment it holds has
a property. -/
def Within (P : Moment → Prop) (I : σ → Prop) : Cursor σ → Prop
  | idle s => I s
  | holding m s => P m ∧ I s
  | ended => True

/-- What producing and seeking must keep for all moments of a cursor to have a
property. -/
structure Confines (P : Moment → Prop) (I : σ → Prop) : Prop where
  produce : ∀ {s s' m}, I s → Source.produce s = some (m, s') → P m ∧ I s'
  seek : ∀ {s}, I s → ∀ d, Within P I (Source.seek d s)

theorem Confines.fill (hI : Confines P I) (h : Within P I c) : Within P I c.fill := by
  cases c with
  | idle s =>
    cases hstep : Source.produce s with
    | none =>
      simp only [Cursor.fill, hstep]
      trivial
    | some p =>
      simp only [Cursor.fill, hstep]
      exact hI.produce h hstep
  | holding m s => exact h
  | ended => trivial

omit [Source σ] in
theorem Within.held (h : Within P I c) {m : Moment} (hm : c.held = some m) : P m := by
  cases c with
  | holding m' s => exact Option.some.inj hm ▸ h.1
  | idle | ended => exact absurd hm (by simp [Cursor.held])

omit [Source σ] in
theorem Within.drop (h : Within P I c) : Within P I c.drop := by
  cases c with
  | holding m s => exact h.2
  | idle | ended => exact h

theorem Confines.ask (hI : Confines P I) (h : Within P I c) (q : Query) :
    (∀ m, (c.ask q).1 = .moment (some m) → P m) ∧ Within P I (c.ask q).2 := by
  have hfill := hI.fill h
  cases q with
  | next => exact ⟨fun m hm => hfill.held (Answer.moment.inj hm), hfill.drop⟩
  | peek => exact ⟨fun m hm => hfill.held (Answer.moment.inj hm), hfill⟩
  | hasNext => exact ⟨fun m hm => absurd hm (by simp [Cursor.ask]), hfill⟩
  | advanceTo d =>
    refine ⟨fun m hm => absurd hm (by simp [Cursor.ask]), ?_⟩
    cases c with
    | idle s => exact hI.seek h d
    | holding m s =>
      simp only [Cursor.ask, Cursor.advanceTo]
      by_cases hlt : m < d
      · rw [if_pos hlt]
        exact hI.seek h.2 d
      · rw [if_neg hlt]
        exact h
    | ended => trivial

/-- **What producing and seeking keep holds of every moment that is named.** -/
theorem Confines.replies (hI : Confines P I) (h : Within P I c) {qs : List Query} {m : Moment}
    (hm : .moment (some m) ∈ c.replies qs) : P m := by
  induction qs generalizing c with
  | nil => exact absurd hm List.not_mem_nil
  | cons q qs ih =>
    obtain ⟨hanswer, hrest⟩ := hI.ask h q
    rcases List.mem_cons.1 hm with heq | hm
    · exact hanswer m heq.symm
    · exact ih hrest hm

end Cursor

/-! ### Raising the threshold adds no candidates -/

namespace Level

variable {threshold raised : Stamp}

theorem spread_sublist (hle : threshold ≤ raised) (level : Level)
    {below below' : Stamp → List Stamp} (h : ∀ t, (below' t).Sublist (below t)) (s : Stamp)
    (values : List Nat) :
    (level.spread raised below' s values).Sublist (level.spread threshold below s values) := by
  induction values with
  | nil => exact List.Sublist.refl _
  | cons value values ih =>
    simp only [spread, List.flatMap_cons] at ih ⊢
    refine List.Sublist.append ?_ ih
    by_cases hraised : level.admits raised (s.set level.field value) = true
    · obtain ⟨hle', haccepts⟩ := admits_iff.1 hraised
      rw [if_pos hraised, if_pos (admits_iff.2 ⟨(Stamp.truncate_mono hle _).trans hle', haccepts⟩)]
      exact h _
    · rw [if_neg hraised]
      exact List.nil_sublist _

theorem listed_sublist (hle : threshold ≤ raised) (levels : List Level) (s : Stamp) :
    (listed raised levels s).Sublist (listed threshold levels s) := by
  induction levels generalizing s with
  | nil => exact List.Sublist.refl _
  | cons level finer ih => exact level.spread_sublist hle ih s _

theorem unvisited_sublist (hle : threshold ≤ raised) (levels : List Level) (ps : List Position)
    (s : Stamp) : (unvisited raised levels ps s).Sublist (unvisited threshold levels ps s) := by
  induction levels generalizing ps s with
  | nil => exact List.Sublist.refl _
  | cons level finer ih =>
    cases ps with
    | nil => exact List.Sublist.refl _
    | cons p ps => exact (ih ps _).append (level.spread_sublist hle (listed_sublist hle finer) s _)

end Level

namespace Cascade

theorem ofYears_sublist {threshold raised : Stamp} (hle : threshold ≤ raised) (levels : List Level)
    (years : List Int) :
    (ofYears raised levels years).Sublist (ofYears threshold levels years) := by
  induction years with
  | nil => exact List.Sublist.refl _
  | cons year years ih =>
    simp only [ofYears, List.flatMap_cons] at ih ⊢
    refine List.Sublist.append ?_ ih
    by_cases hraised : year < raised.year
    · rw [if_pos hraised]
      exact List.nil_sublist _
    · have := Stamp.year_le_of_le hle
      rw [if_neg hraised, if_neg (by omega)]
      exact Level.listed_sublist hle levels _

theorem pending_raiseThreshold (c : Cascade) (raised : Stamp) :
    (c.raiseThreshold raised).pending.Sublist c.pending := by
  unfold raiseThreshold
  split
  · rename_i hlt
    refine List.Sublist.append ?_ (ofYears_sublist hlt.le _ _)
    simp only
    split
    · exact Level.unvisited_sublist hlt.le _ _ _
    · exact List.Sublist.refl _
  · exact List.Sublist.refl _

end Cascade

/-- **A raised threshold takes candidates from the reserve** and adds none. -/
theorem Candidates.reserve_raiseThreshold (c : Candidates) (raised : Stamp) :
    (c.raiseThreshold raised).reserve.Sublist c.reserve := by
  unfold reserve
  cases hsel : c.selection with
  | none =>
    simp only [raiseThreshold, hsel]
    exact c.cascade.pending_raiseThreshold raised
  | some sel =>
    simp only [raiseThreshold, hsel, PeriodSelection.reserve]
    exact (List.Sublist.refl _).append
      ((List.Sublist.refl _).append (c.cascade.pending_raiseThreshold raised))

/-! ### The instants of the reserve -/

namespace RuleSource

variable {P : Moment → Prop} {s : RuleSource}

/-- Whether all candidates that a source may still hand out have instants with a
property. -/
def DrawsOn (P : Moment → Prop) (s : RuleSource) : Prop :=
  ∀ c ∈ s.candidates.reserve, P (s.instant c)

theorem drawsOn_produce (h : s.DrawsOn P) {m : Moment} {s' : RuleSource}
    (hstep : s.produce = some (m, s')) : P m ∧ s'.DrawsOn P := by
  rw [show s.produce = _ from s.produce_eq] at hstep
  obtain ⟨⟨c, candidates⟩, horigin, heq⟩ := Option.map_eq_some_iff.1 hstep
  obtain ⟨rfl, rfl⟩ := Prod.mk.inj heq
  have hreserve := (reserve_of_originFrom horigin).subset
  refine ⟨h c (hreserve List.mem_cons_self), fun c' hc' => ?_⟩
  rw [behind, Candidates.reserve_instanceFound] at hc'
  exact h c' (hreserve (List.mem_cons_of_mem c hc'))

theorem drawsOn_skip (h : s.DrawsOn P) (d : Moment) : Cursor.Within P (DrawsOn P) (s.skip d) := by
  induction hn : s.size using Nat.strong_induction_on generalizing s with
  | _ n ih =>
    cases hstep : s.produce with
    | none =>
      rw [skip_none hstep]
      trivial
    | some p =>
      obtain ⟨m, s'⟩ := p
      obtain ⟨hm, hrest⟩ := drawsOn_produce h hstep
      rw [skip_some hstep]
      by_cases hlt : m < d
      · rw [if_pos hlt]
        exact ih _ (hn ▸ size_produce hstep) hrest rfl
      · rw [if_neg hlt]
        exact ⟨hm, hrest⟩

theorem drawsOn_prune (h : s.DrawsOn P) (d : Moment) : (s.prune d).DrawsOn P := by
  by_cases hprunes : s.Prunes
  · rw [prune_of hprunes]
    exact fun c hc => h c ((s.candidates.reserve_raiseThreshold _).subset hc)
  · rw [prune_of_not hprunes]
    exact h

theorem confines_drawsOn (P : Moment → Prop) : Cursor.Confines P (DrawsOn P) where
  produce h hstep := drawsOn_produce h hstep
  seek h d := drawsOn_skip (drawsOn_prune h d) d

/-- **Each moment that the cursor of a rule names is the instant of one of its
candidates**, whatever it is asked. -/
theorem exists_of_reply {qs : List Query} {m : Moment}
    (hm : .moment (some m) ∈ (Cursor.idle s).replies qs) :
    ∃ c ∈ s.candidates.reserve, s.instant c = m :=
  (confines_drawsOn fun m => ∃ c ∈ s.candidates.reserve, s.instant c = m).replies
    (c := Cursor.idle s) (fun c hc => ⟨c, hc, rfl⟩) hm

end RuleSource

end Recurrence
