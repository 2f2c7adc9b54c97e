/-
# The loop finds what the cascade finds

The loop over the fields shares its generators between all periods. A field
that is behind the stamp (`Stage.Behind`) starts over when it is asked, so it
hands out all the values of its period; since values ascend, every field below
one that has moved on is behind. From there the loop does in finitely many
passes what the walk through the cascade does by recursion, level by level.

So a call for the next candidate returns in every state that the chain of a
rule can reach, with the answer of the cascade that stands where the chain
stands.

Key definitions: `Stage.Behind`, `Stage.Settled`, `Descent.StandsAt`,
`Descent.Answers`, `Chain.Follows`.
Key theorems: `Descent.walk_answers`, `Descent.resume_answers`,
`Chain.Follows.returns`, `Chain.Reachable.follows`.
-/
import Recurrence.Proofs.Expansion.Chain
import Recurrence.Proofs.Expansion.Levels

namespace Recurrence

/-! ### Stamps above a field -/

namespace Stamp

theorem fixed_above (s : Stamp) (f : Field) : (s.above f).fixed (some f) = s.above f := by
  cases f <;> rfl

/-- What comes earlier above a field comes earlier below any of its values. -/
theorem fixed_next_lt {p s : Stamp} {f : Field} (h : p.fixed (some f) < s.fixed (some f))
    (value : Nat) : p.fixed f.next < (s.set f value).fixed f.next := by
  cases f <;> simp only [Field.next, fixed, above, set, lt_iff] at h ⊢ <;> omega

/-- What comes no later than a value of a field comes before any greater
value. -/
theorem fixed_next_lt_set {p s : Stamp} {f : Field} {value : Nat}
    (h : p.fixed f.next ≤ s.fixed f.next) (hlt : s.get f < value) :
    p.fixed f.next < (s.set f value).fixed f.next := by
  cases f <;> simp only [Field.next, fixed, above, set, get, lt_iff, le_iff] at h hlt ⊢ <;> omega

theorem fixed_le_of_next {p s : Stamp} {f : Field} (h : p.fixed f.next ≤ s.fixed f.next) :
    p.fixed (some f) ≤ s.fixed (some f) := by
  cases f <;> simp only [Field.next, fixed, above, le_iff, lt_self_iff_false, false_or, le_refl,
    and_true] at h ⊢ <;> omega

theorem year_eq_of_fixed {s t : Stamp} (h : s.fixed (some .month) = t.fixed (some .month)) :
    s.year = t.year := by
  simp only [fixed, above, ext_iff'] at h
  exact h.1

end Stamp

/-! ### Fields that are behind -/

namespace Stage

/-- Whether a stage was last asked for an earlier period, in the fields above the
given one. -/
def Behind (first : Option Field) (s : Stamp) (stage : Stage) : Prop :=
  ∀ p ∈ stage.generator.period, p.fixed first < s.fixed first

/-- Whether a stage was not asked for a later period, in the fields above the
given one. -/
def Settled (first : Option Field) (s : Stamp) (stage : Stage) : Prop :=
  ∀ p ∈ stage.generator.period, p.fixed first ≤ s.fixed first

theorem Behind.settled {first : Option Field} {s : Stamp} {stage : Stage}
    (h : stage.Behind first s) : stage.Settled first s :=
  fun p hp => (h p hp).le

theorem Settled.year_le {s p : Stamp} {stage : Stage} (h : stage.Settled (some .month) s)
    (hp : p ∈ stage.generator.period) : p.year ≤ s.year := by
  have hle := Stamp.year_le_of_le (h p hp)
  simpa only [Stamp.fixed, Stamp.above] using hle

/-- A stage that is behind has all the values of its period left. -/
theorem Behind.left_eq {s : Stamp} {stage : Stage} (h : stage.Behind (some stage.field) s) :
    stage.left s = stage.level.selection.values s := by
  refine FieldGenerator.left_of_ne fun hp => ?_
  have hlt := h _ (Option.mem_def.2 hp)
  rw [show stage.generator.selection.field = stage.field from rfl, Stamp.fixed_above] at hlt
  exact lt_irrefl _ hlt

end Stage

namespace Descent

/-- Whether stages stand at positions below a stamp: each was last asked for the
period of the stamp, where it handed out the stamp's value of its field and has
the rest of the position left, which ascends from the value. -/
def StandsAt (s : Stamp) : List Stage → List Position → Prop
  | [], [] => True
  | stage :: finer, p :: ps =>
    (s.get stage.field = p.value ∧ stage.generator.period = some (s.above stage.field) ∧
      stage.left s = p.rest ∧ (p.value :: p.rest).Pairwise (· < ·)) ∧
      StandsAt s finer ps
  | _, _ => False

variable {threshold : Stamp} {patience : Nat}

/-- What the loop makes of a search that finds a candidate or nothing in the
fields below those it stands in. With a candidate it ends, and stands at its
position; with nothing it comes back to where it was before. -/
def Answers (threshold : Stamp) (patience : Nat) (w : Descent)
    (x : Pass Descent (Option Stamp × Descent)) (first : Option Field) (levels : List Level) :
    Option (Stamp × List Position) → Prop
  | none => ∃ (stages : List Stage) (b : Stamp), stages.map Stage.level = levels ∧
      b.fixed first = w.builder.fixed first ∧ (∀ stage ∈ stages, stage.Settled first b) ∧
      ∀ r, Pass.Ends (pass threshold patience) (.again { w with lower := stages, builder := b }) r →
        Pass.Ends (pass threshold patience) x r
  | some (found, ps) => ∃ stages : List Stage, stages.map Stage.level = levels ∧
      found.fixed first = w.builder.fixed first ∧ StandsAt found stages ps ∧
      Pass.Ends (pass threshold patience) x
        (some found, { w with upper := stages.reverse ++ w.upper, lower := [], builder := found })

/-- What the loop makes of a search stays the same when some passes come
before it. -/
theorem Answers.through {w : Descent} {x x' : Pass Descent (Option Stamp × Descent)}
    {first : Option Field} {levels : List Level} {answer : Option (Stamp × List Position)}
    {lower : List Stage} {b : Stamp}
    (h : Answers threshold patience { w with lower, builder := b } x' first levels answer)
    (hb : b.fixed first = w.builder.fixed first)
    (hx : ∀ r, Pass.Ends (pass threshold patience) x' r → Pass.Ends (pass threshold patience) x r) :
    Answers threshold patience w x first levels answer := by
  cases answer with
  | none =>
    obtain ⟨stages, b', hlevels, hb', hsettled, hends⟩ := h
    exact ⟨stages, b', hlevels, hb'.trans hb, hsettled, fun r hr => hx r (hends r hr)⟩
  | some answer =>
    obtain ⟨stages, hlevels, hfound, hstands, hends⟩ := h
    exact ⟨stages, hlevels, hfound.trans hb, hstands, hx _ hends⟩

/-- A level admits the stamps with the same fields down to its own. -/
theorem admits_congr {level : Level} {s t : Stamp}
    (hf : ∀ φ ∈ level.filters, φ.field = level.field)
    (h : s.fixed level.field.next = t.fixed level.field.next) :
    level.admits threshold s = level.admits threshold t := by
  rw [Bool.eq_iff_iff, Level.admits_iff, Level.admits_iff, Stamp.truncate_eq_of_fixed h]
  refine and_congr_right fun _ => forall₂_congr fun φ hφ => ?_
  rw [← φ.accepts_truncate s, ← φ.accepts_truncate t, hf φ hφ, Stamp.truncate_eq_of_fixed h]

/-! ### One pass -/

/-- A field that has nothing left is gone back from. -/
theorem pass_nil {w : Descent} {stage : Stage} (h : stage.left w.builder = []) :
    pass threshold patience { w with upper := stage :: w.upper } =
      .again { w with lower := stage.asked w.builder :: w.lower } := by
  have hgenerate : stage.generator.generate w.builder =
      (none, (stage.generator.generate w.builder).2) := by
    refine Prod.ext ?_ rfl
    rw [FieldGenerator.generate_fst, show stage.generator.left w.builder = [] from h]
    rfl
  simp only [pass]
  rw [hgenerate]
  rfl

/-- A field that has a value left is gone down from, if the value is admitted. -/
theorem pass_cons {w : Descent} {stage : Stage} {value : Nat} {rest : List Nat}
    (h : stage.left w.builder = value :: rest) :
    pass threshold patience { w with upper := stage :: w.upper } =
      let b := w.builder.set stage.field value
      let w' : Descent := { w with upper := stage.asked w.builder :: w.upper, builder := b }
      if stage.level.admits threshold b then w'.descend else .again w' := by
  have hgenerate : stage.generator.generate w.builder =
      (some (w.builder.set stage.field value), (stage.generator.generate w.builder).2) := by
    refine Prod.ext ?_ rfl
    rw [FieldGenerator.generate_fst, show stage.generator.left w.builder = value :: rest from h]
    rfl
  simp only [pass]
  rw [hgenerate]
  rfl

/-- When no year is left the loop ends. -/
theorem pass_last {w : Descent} (hupper : w.upper = []) (h : w.years.last < w.years.next) :
    pass threshold patience w = .done (none, w) := by
  simp only [pass, hupper, SerialYears.generate, if_pos h]
  rw [← hupper]

/-- The loop in the next year. -/
def inYear (w : Descent) : Descent :=
  { w with
    years := w.years.behind
    builder := { w.builder with year := w.years.next } }

/-- A year before the threshold is passed over; any other year counts, and is gone
down from unless it is one too many. -/
theorem pass_year {w : Descent} (hupper : w.upper = []) (h : w.years.next ≤ w.years.last) :
    pass threshold patience w =
      if w.years.next < threshold.year then .again w.inYear
      else
        let w' := { w.inYear with barren := w.barren + 1 }
        if patience < w.barren + 1 then .done (none, w') else w'.descend := by
  simp only [pass, hupper, SerialYears.generate, if_neg (not_lt.2 h), inYear]
  by_cases hlt : w.years.next < threshold.year
  · simp [hlt, not_le.2 hlt]
  · simp [hlt, not_lt.1 hlt]

/-! ### The levels -/

/-- Where the loop stands in a level with some values left: the stage of the level
has them left in the period of the stamp, and the finer fields are behind each of
them. -/
structure Faces (level : Level) (finer : List Level) (s : Stamp) (values : List Nat) (w : Descent)
    (stage : Stage) : Prop where
  stage_level : stage.level = level
  lower_levels : w.lower.map Stage.level = finer
  above : s.above level.field = w.builder.above level.field
  left : stage.left w.builder = values
  settled : ∀ st ∈ w.lower, st.Settled (some level.field) w.builder
  behind : ∀ value ∈ values, ∀ st ∈ w.lower,
    st.Behind level.field.next (w.builder.set level.field value)

namespace Faces

variable {level : Level} {finer : List Level} {s : Stamp} {value : Nat} {rest : List Nat}
  {w : Descent} {stage : Stage}

theorem stage_field {values : List Nat} (h : Faces level finer s values w stage) :
    stage.field = level.field := by
  rw [Stage.field, h.stage_level]

/-- The stage that was asked has the rest left below every stamp of the period. -/
theorem left_asked (h : Faces level finer s (value :: rest) w stage) {b : Stamp}
    (hb : b.above level.field = w.builder.above level.field) :
    (stage.asked w.builder).left b = rest := by
  have hfield : (stage.asked w.builder).field = level.field := by
    rw [Stage.field, Stage.level_asked, h.stage_level]
  rw [Stage.left_congr (hfield.symm ▸ hb), Stage.left_asked, h.left, List.tail_cons]

/-- A value that is not admitted is passed over. -/
theorem passOver (h : Faces level finer s (value :: rest) w stage) :
    Faces level finer s rest { w with builder := w.builder.set level.field value }
      (stage.asked w.builder) where
  stage_level := (stage.level_asked w.builder).trans h.stage_level
  lower_levels := h.lower_levels
  above := h.above.trans (Stamp.above_set _ _ _).symm
  left := h.left_asked (Stamp.above_set _ _ _)
  settled st hst p hp := (h.settled st hst p hp).trans_eq (Stamp.above_set _ _ _).symm
  behind v hv st hst := by
    rw [Stamp.set_set]
    exact h.behind v (List.mem_cons_of_mem _ hv) st hst

/-- When the finer fields have nothing left below a value, the level goes on to
greater ones. -/
theorem comeBack (h : Faces level finer s (value :: rest) w stage) (hlt : ∀ v ∈ rest, value < v)
    {lower : List Stage} {b : Stamp} (hlower : lower.map Stage.level = finer)
    (hb : b.fixed level.field.next = (w.builder.set level.field value).fixed level.field.next)
    (hsettled : ∀ st ∈ lower, st.Settled level.field.next b) :
    Faces level finer s rest { w with lower, builder := b } (stage.asked w.builder) := by
  obtain ⟨habove, hget⟩ := (Stamp.fixed_next_iff _ _ _).1 hb
  rw [Stamp.above_set] at habove
  rw [Stamp.get_set] at hget
  exact
    { stage_level := (stage.level_asked w.builder).trans h.stage_level
      lower_levels := hlower
      above := h.above.trans habove.symm
      left := h.left_asked habove
      settled := fun st hst p hp => Stamp.fixed_le_of_next (hsettled st hst p hp)
      behind := fun v hv st hst p hp =>
        Stamp.fixed_next_lt_set (hsettled st hst p hp) (hget.trans_lt (hlt v hv)) }

end Faces

/-- From a level with some values left, the loop does what a walk over them
does, if it does what a search does below each of them. -/
theorem walk_answers {level : Level} {finer : List Level}
    (hfilters : ∀ φ ∈ level.filters, φ.field = level.field)
    (ih : ∀ (w : Descent) (s : Stamp), w.lower.map Stage.level = finer →
      (∀ st ∈ w.lower, st.Behind level.field.next w.builder) →
      s.fixed level.field.next = w.builder.fixed level.field.next →
      Answers threshold patience w w.descend level.field.next finer
        (Level.search threshold finer s))
    {values : List Nat} (hvalues : values.Pairwise (· < ·)) {w : Descent} {stage : Stage}
    {s : Stamp} (h : Faces level finer s values w stage) :
    Answers threshold patience w (.again { w with upper := stage :: w.upper })
      (some level.field) (level :: finer)
      (Level.walk threshold level (Level.search threshold finer) s values) := by
  induction values generalizing w stage with
  | nil =>
    refine ⟨stage.asked w.builder :: w.lower, w.builder, ?_, rfl,
      List.forall_mem_cons.2 ⟨fun p hp => ?_, h.settled⟩, fun r hr => .next (pass_nil h.left) hr⟩
    · rw [List.map_cons, Stage.level_asked, h.stage_level, h.lower_levels]
    · rw [Stage.period_asked, h.stage_field, Option.mem_some_iff] at hp
      rw [← hp, Stamp.fixed_above]
      exact le_refl _
  | cons value rest ihv =>
    obtain ⟨hlt, hrest⟩ := List.pairwise_cons.1 hvalues
    have hpass := @pass_cons threshold patience _ _ _ _ h.left
    rw [h.stage_field, h.stage_level] at hpass
    have hs : (s.set level.field value).fixed level.field.next =
        (w.builder.set level.field value).fixed level.field.next := by
      rw [Stamp.fixed_next_iff, Stamp.above_set, Stamp.get_set, Stamp.above_set, Stamp.get_set]
      exact ⟨h.above, rfl⟩
    simp only [Level.walk]
    rw [admits_congr hfilters hs]
    by_cases hadmits : level.admits threshold (w.builder.set level.field value) = true
    · simp only [if_pos hadmits] at hpass ⊢
      have hsearch := ih { w with
        upper := stage.asked w.builder :: w.upper
        builder := w.builder.set level.field value } (s.set level.field value) h.lower_levels
        (h.behind value List.mem_cons_self) hs
      cases hfound : Level.search threshold finer (s.set level.field value) with
      | none =>
        rw [hfound] at hsearch
        obtain ⟨lower, b, hlower, hb, hsettled, hends⟩ := hsearch
        have habove := ((Stamp.fixed_next_iff _ _ _).1 hb).1.trans (Stamp.above_set _ _ _)
        exact (ihv hrest (h.comeBack hlt hlower hb hsettled)).through habove
          fun r hr => .next hpass (hends r hr)
      | some found =>
        rw [hfound] at hsearch
        obtain ⟨lower, hlower, hb, hstands, hends⟩ := hsearch
        obtain ⟨habove, hget⟩ := (Stamp.fixed_next_iff _ _ _).1 hb
        rw [Stamp.above_set] at habove
        rw [Stamp.get_set] at hget
        refine ⟨stage.asked w.builder :: lower, ?_, habove, ⟨?_, hstands⟩, ?_⟩
        · rw [List.map_cons, Stage.level_asked, h.stage_level, hlower]
        · rw [Stage.field, Stage.level_asked, h.stage_level, Stage.period_asked, h.stage_field,
            habove]
          exact ⟨hget, rfl, h.left_asked habove, hvalues⟩
        · rw [List.reverse_cons, List.append_assoc]
          exact .next hpass hends
    · simp only [if_neg hadmits] at hpass ⊢
      exact (ihv hrest h.passOver).through (Stamp.above_set _ _ _) fun r hr => .next hpass hr

/-- Below a stamp that all finer fields are behind, the loop does what a search
does. -/
theorem search_answers {first : Option Field} {levels : List Level}
    (hspans : Level.Spans first levels) {w : Descent} {s : Stamp}
    (hlower : w.lower.map Stage.level = levels)
    (hbehind : ∀ stage ∈ w.lower, stage.Behind first w.builder)
    (hs : s.fixed first = w.builder.fixed first) :
    Answers threshold patience w w.descend first levels (Level.search threshold levels s) := by
  induction levels generalizing first w s with
  | nil =>
    cases first with
    | some f => exact hspans.elim
    | none =>
      obtain ⟨years, upper, lower, builder, barren⟩ := w
      obtain rfl : lower = [] := List.map_eq_nil_iff.1 hlower
      obtain rfl : s = builder := hs
      exact ⟨[], rfl, rfl, trivial, .done _⟩
  | cons level finer ih =>
    cases first with
    | none => exact hspans.elim
    | some f =>
      obtain ⟨⟨rfl, hfilters⟩, hfiner⟩ := hspans
      obtain ⟨stage, lower, hw, hstage, hlower'⟩ := List.map_eq_cons_iff.1 hlower
      rw [hw] at hbehind
      obtain ⟨hfirst, hbehind⟩ := List.forall_mem_cons.1 hbehind
      have hfaces : Faces level finer s (level.selection.values s) { w with lower } stage :=
        { stage_level := hstage
          lower_levels := hlower'
          above := hs
          left := by
            have hfield : stage.field = level.field := by rw [Stage.field, hstage]
            rw [Stage.Behind.left_eq (hfield ▸ hfirst), hstage, ← Selection.values_above,
              ← level.selection.values_above s]
            exact congrArg _ hs.symm
          settled := fun st hst => (hbehind st hst).settled
          behind := fun value _ st hst p hp => Stamp.fixed_next_lt (hbehind st hst p hp) value }
      refine (walk_answers hfilters (fun w s => ih hfiner) (level.selection.pairwise_values s)
        hfaces).through (b := w.builder) rfl fun r hr => ?_
      rw [descend, hw]
      exact hr

/-- From the position where it stands, the loop does what a resumed walk does. -/
theorem resume_answers {first : Option Field} {levels : List Level}
    (hspans : Level.Spans first levels) {stages : List Stage} {ps : List Position}
    {w : Descent} {s : Stamp} (hstages : stages.map Stage.level = levels)
    (hstands : StandsAt w.builder stages ps) (hs : s.fixed first = w.builder.fixed first) :
    Answers threshold patience w
      (.again { w with upper := stages.reverse ++ w.upper, lower := [] }) first levels
      (Level.resume threshold levels ps s) := by
  induction levels generalizing first stages ps w s with
  | nil =>
    obtain rfl := List.map_eq_nil_iff.1 hstages
    exact ⟨[], w.builder, rfl, rfl, fun _ h => absurd h List.not_mem_nil, fun r hr => hr⟩
  | cons level finer ih =>
    obtain ⟨stage, lower, rfl, hstage, hlower⟩ := List.map_eq_cons_iff.1 hstages
    cases first with
    | none => exact hspans.elim
    | some f =>
      cases ps with
      | nil => exact hstands.elim
      | cons p ps =>
        obtain ⟨⟨rfl, hfilters⟩, hfiner⟩ := hspans
        obtain ⟨⟨hvalue, hperiod, hleft, hasc⟩, hstands⟩ := hstands
        have hfield : stage.field = level.field := by rw [Stage.field, hstage]
        rw [hfield] at hvalue hperiod
        obtain ⟨hgt, hrest⟩ := List.pairwise_cons.1 hasc
        have hset : (s.set level.field p.value).fixed level.field.next =
            w.builder.fixed level.field.next := by
          rw [Stamp.fixed_next_iff, Stamp.above_set, Stamp.get_set]
          exact ⟨hs, hvalue.symm⟩
        have hresume := ih hfiner (w := { w with upper := stage :: w.upper }) hlower hstands hset
        rw [List.reverse_cons, List.append_assoc]
        simp only [Level.resume]
        cases hfound : Level.resume threshold finer ps (s.set level.field p.value) with
        | none =>
          rw [hfound] at hresume
          obtain ⟨lower', b, hlower', hb, hsettled, hends⟩ := hresume
          obtain ⟨habove, hget⟩ := (Stamp.fixed_next_iff _ _ _).1 hb
          have hfaces : Faces level finer s p.rest { w with lower := lower', builder := b } stage :=
            { stage_level := hstage
              lower_levels := hlower'
              above := hs.trans habove.symm
              left := (Stage.left_congr (hfield.symm ▸ habove)).trans hleft
              settled := fun st hst q hq => Stamp.fixed_le_of_next (hsettled st hst q hq)
              behind := fun v hv st hst q hq => Stamp.fixed_next_lt_set (hsettled st hst q hq)
                ((hget.trans hvalue).trans_lt (hgt v hv)) }
          exact (walk_answers hfilters (fun w s => search_answers hfiner) hrest hfaces).through
            habove hends
        | some found =>
          rw [hfound] at hresume
          obtain ⟨lower', hlower', hb, hstands', hends⟩ := hresume
          obtain ⟨habove, hget⟩ := (Stamp.fixed_next_iff _ _ _).1 hb
          refine ⟨stage :: lower', by rw [List.map_cons, hstage, hlower'], habove,
            ⟨?_, hstands'⟩, ?_⟩
          · rw [hfield]
            exact ⟨hget.trans hvalue, habove ▸ hperiod,
              (Stage.left_congr (hfield.symm ▸ habove)).trans hleft, hasc⟩
          · rw [List.reverse_cons, List.append_assoc]
            exact hends

end Descent

/-! ### Calls -/

namespace Chain

/-- Whether the generators of a chain stand where a walk stands: at the beginning
before the first call, at the position of the walk after that. -/
structure Stands (c : Chain) (k : Cascade) : Prop where
  levels : c.stages.map Stage.level = k.levels
  spans : Level.Spans (some .month) k.levels
  interval : 0 < c.years.interval
  years : k.years = c.years.steps
  barren : k.barren = c.barren
  current : match k.current with
    | none => c.primed = false ∧ ∀ stage ∈ c.stages, stage.generator.period = none
    | some (year, ps) => c.primed = true ∧ c.builder.year = year ∧ year < c.years.next ∧
        Descent.StandsAt c.builder c.stages ps

/-- Whether a chain and a walk have the same candidates to come. -/
structure Follows (c : Chain) (k : Cascade) : Prop where
  threshold : k.threshold = c.threshold
  patience : k.patience = c.patience
  finished : k.finished = c.exhausted
  stands : c.exhausted = false → c.Stands k

/-- Whether a walk that is not over goes by the limits of a chain. -/
structure Agrees (c : Chain) (k : Cascade) : Prop where
  threshold : k.threshold = c.threshold
  patience : k.patience = c.patience
  finished : k.finished = false
  spans : Level.Spans (some .month) k.levels

/-- What the loop makes of a step of a walk: it ends with the candidate, and the
chain stands where the walk stands then; or it ends without one. -/
def Finds (c : Chain) (x : Pass Descent (Option Stamp × Descent)) :
    Option (Stamp × Cascade) → Prop
  | none => ∃ w, Pass.Ends (Descent.pass c.threshold c.patience) x (none, w)
  | some (found, k) => ∃ w, Pass.Ends (Descent.pass c.threshold c.patience) x (some found, w) ∧
      (c.leave (some found, w)).2.Follows k

variable {c : Chain} {k : Cascade}

/-- What the loop makes of a step stays the same when some passes come before
it. -/
theorem Finds.through {x x' : Pass Descent (Option Stamp × Descent)}
    {answer : Option (Stamp × Cascade)} (h : c.Finds x' answer)
    (hx : ∀ r, Pass.Ends (Descent.pass c.threshold c.patience) x' r →
      Pass.Ends (Descent.pass c.threshold c.patience) x r) : c.Finds x answer := by
  cases answer with
  | none =>
    obtain ⟨w, hends⟩ := h
    exact ⟨w, hx _ hends⟩
  | some found =>
    obtain ⟨w, hends, hfollows⟩ := h
    exact ⟨w, hx _ hends, hfollows⟩

/-- A chain that ends with a candidate stands at its position. -/
theorem finds_of_answers (hagrees : c.Agrees k) {w : Descent}
    {x : Pass Descent (Option Stamp × Descent)} {found : Stamp} {ps : List Position}
    (hupper : w.upper = []) (hinterval : 0 < w.years.interval)
    (hyear : w.builder.year < w.years.next)
    (h : Descent.Answers c.threshold c.patience w x (some .month) k.levels (some (found, ps))) :
    c.Finds x (some (found, { k with
      years := w.years.steps
      current := some (w.builder.year, ps)
      barren := w.barren })) := by
  obtain ⟨stages, hstages, hfound, hstands, hends⟩ := h
  obtain ⟨hthreshold, hpatience, hfinished, hspans⟩ := hagrees
  refine ⟨_, hends, hthreshold, hpatience, hfinished, fun _ => ?_⟩
  have hleave : (stages.reverse ++ w.upper).reverse ++ [] = stages := by simp [hupper]
  refine ⟨?_, hspans, hinterval, rfl, rfl, rfl, Stamp.year_eq_of_fixed hfound, hyear, ?_⟩
  · rw [← hstages]
    exact congrArg _ hleave
  · show Descent.StandsAt found ((stages.reverse ++ w.upper).reverse ++ []) ps
    rwa [hleave]

/-- From a year whose finer fields are behind the years to come, the loop does what
entering the years does. -/
theorem finds_enterYears (hagrees : c.Agrees k) {left : Nat} {w : Descent}
    (hupper : w.upper = []) (hlower : w.lower.map Stage.level = k.levels)
    (hinterval : 0 < w.years.interval) (hk : k.years.interval = w.years.interval)
    (hleft : w.years.steps.left = left)
    (hbehind : ∀ stage ∈ w.lower, ∀ p ∈ stage.generator.period, p.year < w.years.next) :
    c.Finds (.again w) (k.enterYears w.years.next w.barren left) := by
  induction left generalizing w with
  | zero =>
    have hlt : w.years.last < w.years.next := by
      by_contra hle
      have := SerialYears.steps_of_le hinterval (not_lt.1 hle)
      omega
    exact ⟨w, .next (Descent.pass_last hupper hlt) (.done _)⟩
  | succ left ih =>
    have hle : w.years.next ≤ w.years.last := by
      by_contra hgt
      have := SerialYears.left_of_lt (not_le.1 hgt)
      omega
    have hbehind_left : w.years.behind.steps.left = left := by
      have := SerialYears.steps_of_le hinterval hle
      omega
    have hpass := @Descent.pass_year c.threshold c.patience w hupper hle
    have hnext : w.years.next < w.inYear.years.next := by
      simp only [Descent.inYear, SerialYears.behind]
      omega
    unfold Cascade.enterYears
    rw [hagrees.threshold, hagrees.patience, hk]
    by_cases hlt : w.years.next < c.threshold.year
    · rw [if_pos hlt] at hpass ⊢
      exact (ih (w := w.inYear) hupper hlower hinterval hk hbehind_left fun stage hstage p hp =>
        (hbehind stage hstage p hp).trans hnext).through fun r hr => .next hpass hr
    · rw [if_neg hlt] at hpass ⊢
      by_cases hpatience' : c.patience < w.barren + 1
      · simp only [if_pos hpatience'] at hpass ⊢
        exact ⟨_, .next hpass (.done _)⟩
      · simp only [if_neg hpatience'] at hpass ⊢
        have hsearch := @Descent.search_answers c.threshold c.patience _ _ hagrees.spans
          { w.inYear with barren := w.barren + 1 } (.ofYear w.years.next) hlower
          (fun stage hstage p hp => Or.inl (hbehind stage hstage p hp)) rfl
        cases hfound : Level.search c.threshold k.levels (.ofYear w.years.next) with
        | none =>
          rw [hfound] at hsearch
          obtain ⟨lower, b, hlower', hb, hsettled, hends⟩ := hsearch
          refine (ih (w := { w.inYear with lower, builder := b, barren := w.barren + 1 }) hupper
            hlower' hinterval hk hbehind_left fun stage hstage p hp => ?_).through
            fun r hr => .next hpass (hends r hr)
          -- the fields below are settled in this year, so they are behind the next one
          exact (Stage.Settled.year_le (hsettled stage hstage) hp).trans_lt
            ((Stamp.year_eq_of_fixed hb).trans_lt hnext)
        | some found =>
          rw [hfound] at hsearch
          have hfinds := finds_of_answers hagrees
            (w := { w.inYear with barren := w.barren + 1 }) hupper hinterval hnext hsearch
          simp only [Descent.inYear] at hfinds
          rw [SerialYears.steps_behind hinterval, hbehind_left, hagrees.threshold,
            hagrees.patience] at hfinds
          exact hfinds.through fun r hr => .next hpass hr

/-- From where the chain stands, the loop does what a step of the walk does. -/
theorem Stands.finds (h : c.Stands k) (hagrees : c.Agrees k) :
    c.Finds (.again c.enter) k.step? := by
  have hinterval : k.years.interval = c.years.interval := by
    have := h.interval
    simp only [h.years, SerialYears.steps, YearSteps.of]
    omega
  have hcurrent := h.current
  simp only [Cascade.step?, Cascade.stayInYear, hagrees.finished, Bool.false_eq_true, if_false,
    h.barren, h.years]
  cases hk : k.current with
  | none =>
    rw [hk] at hcurrent
    obtain ⟨hprimed, hfresh⟩ := hcurrent
    have henter : c.enter = ⟨c.years, [], c.stages, c.builder, c.barren⟩ := by
      simp [enter, hprimed]
    rw [henter]
    refine finds_enterYears hagrees rfl h.levels h.interval hinterval rfl
      fun stage hstage p hp => ?_
    rw [hfresh stage hstage] at hp
    exact absurd hp (Option.not_mem_none p)
  | some current =>
    obtain ⟨year, ps⟩ := current
    rw [hk] at hcurrent
    obtain ⟨hprimed, rfl, hyear, hstands⟩ := hcurrent
    have henter : c.enter =
        ⟨c.years, c.stages.reverse ++ [], [], c.builder, c.barren⟩ := by
      simp [enter, hprimed]
    have hresume := @Descent.resume_answers c.threshold c.patience _ _ h.spans _ _
      ⟨c.years, [], [], c.builder, c.barren⟩ (.ofYear c.builder.year) h.levels hstands rfl
    rw [henter, hagrees.threshold]
    cases hfound : Level.resume c.threshold k.levels ps (.ofYear c.builder.year) with
    | none =>
      rw [hfound] at hresume
      simp only [hfound, Option.map_none]
      obtain ⟨stages, b, hstages, hb, hsettled, hends⟩ := hresume
      refine Finds.through (finds_enterYears (w := ⟨c.years, [], stages, b, c.barren⟩) hagrees rfl
        hstages h.interval hinterval rfl fun stage hstage p hp => ?_) hends
      exact (Stage.Settled.year_le (hsettled stage hstage) hp).trans_lt
        ((Stamp.year_eq_of_fixed hb).trans_lt hyear)
    | some found =>
      rw [hfound] at hresume
      have hfinds := finds_of_answers hagrees
        (w := ⟨c.years, [], [], c.builder, c.barren⟩) rfl h.interval hyear hresume
      simp only [hfound, Option.map_some]
      rw [hagrees.threshold, hagrees.finished] at hfinds
      exact hfinds

/-- **A call returns what the walk finds**, and the chain follows the walk from
there on. -/
theorem Follows.returns (h : c.Follows k) :
    ∃ c', c.Returns (k.next.1, c') ∧ c'.Follows k.next.2 := by
  cases hexhausted : c.exhausted with
  | true =>
    have hnext : k.next = (none, { k with finished := true }) := by
      simp only [Cascade.next, Cascade.step?, h.finished, hexhausted, if_true]
    rw [hnext]
    exact ⟨c, .exhausted hexhausted, h.threshold, h.patience, hexhausted.symm,
      fun h => absurd h (by simp [hexhausted])⟩
  | false =>
    have hstands := h.stands hexhausted
    have hfinds := hstands.finds
      ⟨h.threshold, h.patience, h.finished.trans hexhausted, hstands.spans⟩
    unfold Cascade.next
    cases hstep : k.step? with
    | none =>
      rw [hstep] at hfinds
      obtain ⟨w, hends⟩ := hfinds
      exact ⟨_, .loop hexhausted hends, h.threshold, h.patience, rfl, fun h => absurd h (by simp)⟩
    | some found =>
      rw [hstep] at hfinds
      obtain ⟨w, hends, hfollows⟩ := hfinds
      exact ⟨_, .loop hexhausted hends, hfollows⟩

/-- The chain of a rule begins where the walk of its cascade begins. -/
theorem follows_of (rule : Rule) (start : Moment) (limits : Limits) :
    (Chain.of rule start limits).Follows (rule.candidates start limits).cascade := by
  refine ⟨rfl, rfl, rfl, fun _ => ⟨?_, rule.spans_levels _ _ _, ?_, ?_, rfl, rfl, ?_⟩⟩
  · simp [Chain.of, Rule.candidates, Function.comp_def]
  · simp only [Chain.of, SerialYears.of]
    omega
  · exact (SerialYears.steps_of _ _ _).symm
  · simp [Chain.of, Stage.of]

/-- The thirtieth of every February. -/
def thirtiethsOfFebruary : Rule :=
  { Rule.every .yearly with byMonth := [2], byMonthDay := [30] }

/-- Where there is no instance, the first call returns without one. -/
example :
    ∃ c', (Chain.of thirtiethsOfFebruary (.onDate 2000 1 1) ⟨5, 9999⟩).Returns (none, c') := by
  obtain ⟨c', hreturns, -⟩ :=
    (follows_of thirtiethsOfFebruary (.onDate 2000 1 1) ⟨5, 9999⟩).returns
  have hnone : (thirtiethsOfFebruary.candidates (.onDate 2000 1 1) ⟨5, 9999⟩).cascade.next.1 =
      none := by decide +kernel
  exact ⟨c', hnone ▸ hreturns⟩

theorem Follows.raiseThreshold (h : c.Follows k) (threshold : Stamp) :
    (c.raiseThreshold threshold).Follows (k.raiseThreshold threshold) := by
  unfold Chain.raiseThreshold Cascade.raiseThreshold
  rw [h.threshold]
  split
  · refine ⟨rfl, h.patience, h.finished, fun hexhausted => ?_⟩
    have hstands := h.stands hexhausted
    exact ⟨hstands.levels, hstands.spans, hstands.interval, hstands.years, hstands.barren,
      hstands.current⟩
  · exact h

theorem Follows.instanceFound (h : c.Follows k) : c.instanceFound.Follows k.instanceFound := by
  refine ⟨h.threshold, h.patience, h.finished, fun hexhausted => ?_⟩
  have hstands := h.stands hexhausted
  exact ⟨hstands.levels, hstands.spans, hstands.interval, hstands.years, rfl, hstands.current⟩

/-- **Whatever is done with the chain of a rule, it follows a walk through the
rule's cascade.** -/
theorem Reachable.follows {rule : Rule} {start : Moment} {limits : Limits}
    (h : c.Reachable rule start limits) : ∃ k : Cascade, c.Follows k := by
  induction h with
  | start => exact ⟨_, follows_of rule start limits⟩
  | returns _ hcall ih =>
    obtain ⟨k, hk⟩ := ih
    obtain ⟨c', hreturns, hfollows⟩ := hk.returns
    obtain ⟨-, rfl⟩ := Prod.mk.inj (hreturns.unique hcall)
    exact ⟨_, hfollows⟩
  | raiseThreshold _ threshold ih =>
    obtain ⟨k, hk⟩ := ih
    exact ⟨_, hk.raiseThreshold threshold⟩
  | instanceFound _ ih =>
    obtain ⟨k, hk⟩ := ih
    exact ⟨_, hk.instanceFound⟩

end Chain

end Recurrence
