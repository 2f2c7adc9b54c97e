/-
# The search as one loop

The next candidate is found by one loop over the fields. Each field has a
generator that hands out its values and notices by itself that the period has
changed. A pass asks the generator of the field where the loop stands: with a
value that is admitted the loop goes on to the next finer field, with another
value it stays, and when the period has nothing left it goes back to the next
coarser field. Only the years come to an end for good.

The stamp that is built and the generators are shared by all fields and by all
calls, so a field may hold what is left of an earlier period. A generator is
described by what it has left in the period of a stamp
(`FieldGenerator.left`), whether it steps or reads a list.

Key definitions: `FieldGenerator`, `SerialYears`, `Descent.pass`, `Chain`,
`Chain.Returns`, `Chain.Reachable`.
Key theorems: `FieldGenerator.generate_fst`, `FieldGenerator.left_generate`,
`SerialYears.steps_of_le`.
-/
import Recurrence.Expansion.Plan
import Recurrence.Proofs.Expansion.Listing
import Recurrence.Proofs.Loop

namespace Recurrence

/-! ### Generators that step -/

namespace Steps

/-- The first value in the period of a stamp. -/
def first (steps : Steps) (s : Stamp) : Nat :=
  lowest steps.field + (-steps.distance s % steps.stride).toNat

theorem values_eq (steps : Steps) (s : Stamp) :
    steps.values s = progression (steps.first s) steps.stride (highest steps.field s) := rfl

theorem highest_congr {f : Field} {s t : Stamp} (h : s.above f = t.above f) :
    highest f s = highest f t := by
  cases f with
  | day =>
    simp only [Stamp.above, Stamp.mk.injEq] at h
    simp only [highest, h.1, h.2.1]
  | month => rfl
  | hour => rfl
  | minute => rfl
  | second => rfl

theorem progression_of_lt {first last : Nat} (stride : Nat) (h : last < first) :
    progression first stride last = [] :=
  if_neg (by omega)

theorem progression_of_le {first stride last : Nat} (hstride : 0 < stride) (h : first ≤ last) :
    progression first stride last = first :: progression (first + stride) stride last := by
  unfold progression
  rw [if_pos h]
  split
  · rename_i hle
    -- one stride on, one value fewer is left
    have hcount : (last - first) / stride = (last - (first + stride)) / stride + 1 := by
      rw [show last - first = (last - (first + stride)) + stride by omega,
        Nat.add_div_right _ hstride]
    rw [hcount, List.range_succ_eq_map, List.map_cons, List.map_map]
    congr 1
    refine List.map_congr_left fun k _ => ?_
    simp only [Function.comp, Nat.mul_succ]
    omega
  · rename_i hgt
    rw [Nat.div_eq_of_lt (by omega)]
    rfl

end Steps

/-- A field that steps: the period it was last asked for, and the value that
comes next there. -/
structure SerialGenerator where
  steps : Steps
  period : Option Stamp
  next : Nat

namespace SerialGenerator

/-- The generator at the period of a stamp. -/
def enter (g : SerialGenerator) (s : Stamp) : SerialGenerator :=
  let period := s.above g.steps.field
  if g.period = some period then g
  else { g with period := some period, next := g.steps.first s }

/-- The stamp with the next value of the field, unless that is past the end of
the period. -/
def generate (g : SerialGenerator) (s : Stamp) : Option Stamp × SerialGenerator :=
  let g := g.enter s
  if Steps.highest g.steps.field s < g.next then (none, g)
  else (some (s.set g.steps.field g.next), { g with next := g.next + g.steps.stride })

theorem enter_of_eq {g : SerialGenerator} {s : Stamp}
    (h : g.period = some (s.above g.steps.field)) : g.enter s = g :=
  if_pos h

@[simp] theorem steps_enter (g : SerialGenerator) (s : Stamp) : (g.enter s).steps = g.steps := by
  simp only [enter]
  split <;> rfl

@[simp] theorem period_enter (g : SerialGenerator) (s : Stamp) :
    (g.enter s).period = some (s.above g.steps.field) := by
  simp only [enter]
  split
  · assumption
  · rfl

end SerialGenerator

namespace Generator

theorem enter_of_eq {g : Generator} {s : Stamp}
    (h : g.period = some (s.above g.selection.field)) : g.enter s = g :=
  if_pos h

@[simp] theorem selection_enter (g : Generator) (s : Stamp) :
    (g.enter s).selection = g.selection := by
  simp only [enter]
  split <;> rfl

@[simp] theorem period_enter (g : Generator) (s : Stamp) :
    (g.enter s).period = some (s.above g.selection.field) := by
  simp only [enter]
  split
  · assumption
  · rfl

end Generator

/-! ### Generators -/

/-- The generator of a field below the year. -/
inductive FieldGenerator
  | serial (g : SerialGenerator)
  | listed (g : Generator)

namespace FieldGenerator

/-- A generator that was not asked yet. -/
def of : Selection → FieldGenerator
  | .steps steps => .serial ⟨steps, none, 0⟩
  | .list list => .listed (.of (.list list))

/-- Where the generator takes its values from. -/
def selection : FieldGenerator → Selection
  | .serial g => .steps g.steps
  | .listed g => g.selection

/-- The period the generator was last asked for. -/
def period : FieldGenerator → Option Stamp
  | .serial g => g.period
  | .listed g => g.period

/-- The stamp with the next value of the field, if its period has one left. -/
def generate (g : FieldGenerator) (s : Stamp) : Option Stamp × FieldGenerator :=
  match g with
  | .serial g => (g.generate s).map id .serial
  | .listed g => (g.generate s).map id .listed

/-- The values that the generator has left in the period of a stamp. -/
def left (g : FieldGenerator) (s : Stamp) : List Nat :=
  match g with
  | .serial g =>
    Steps.progression (g.enter s).next g.steps.stride (Steps.highest g.steps.field s)
  | .listed g => (g.enter s).rest

@[simp] theorem selection_of (selection : Selection) : (of selection).selection = selection := by
  cases selection <;> rfl

@[simp] theorem period_of (selection : Selection) : (of selection).period = none := by
  cases selection <;> rfl

/-- In a new period all values of the field are left. -/
theorem left_of_ne {g : FieldGenerator} {s : Stamp}
    (h : g.period ≠ some (s.above g.selection.field)) : g.left s = g.selection.values s := by
  cases g with
  | serial g =>
    simp only [period, selection, Selection.field] at h
    simp only [left, SerialGenerator.enter, if_neg h]
    exact (Steps.values_eq _ _).symm
  | listed g =>
    simp only [period, selection] at h
    simp only [left, Generator.enter, if_neg h, selection]

/-- What is left in the period that a generator stands in depends on the period
only. -/
theorem left_congr {g : FieldGenerator} {s t : Stamp}
    (h : s.above g.selection.field = t.above g.selection.field) : g.left s = g.left t := by
  by_cases hp : g.period = some (s.above g.selection.field)
  · have hp' := h ▸ hp
    cases g with
    | serial g =>
      simp only [period, selection, Selection.field] at h hp hp'
      simp only [left, SerialGenerator.enter, if_pos hp, if_pos hp', Steps.highest_congr h]
    | listed g =>
      simp only [period, selection] at hp hp'
      simp only [left, Generator.enter, if_pos hp, if_pos hp']
  · rw [left_of_ne hp, left_of_ne (h ▸ hp), ← Selection.values_above, h, Selection.values_above]

/-- A generator hands out the first of the values that are left, if there is
one. -/
theorem generate_fst (g : FieldGenerator) (s : Stamp) :
    (g.generate s).1 = (g.left s).head?.map (s.set g.selection.field) := by
  cases g with
  | serial g =>
    by_cases hlt : Steps.highest g.steps.field s < (g.enter s).next
    · simp [generate, SerialGenerator.generate, left, hlt, Steps.progression_of_lt]
    · have hle := Steps.progression_of_le g.steps.stride_pos (not_lt.1 hlt)
      simp [generate, SerialGenerator.generate, left, hlt, hle, selection, Selection.field]
  | listed g =>
    cases h : (g.enter s).rest <;> simp [generate, Generator.generate, left, h, selection]

@[simp] theorem selection_generate (g : FieldGenerator) (s : Stamp) :
    (g.generate s).2.selection = g.selection := by
  cases g with
  | serial g =>
    simp only [generate, SerialGenerator.generate]
    split <;> simp [selection]
  | listed g =>
    simp only [generate, Generator.generate]
    split <;> simp [selection]

/-- A generator that was asked stands in the period of the stamp. -/
theorem period_generate (g : FieldGenerator) (s : Stamp) :
    (g.generate s).2.period = some (s.above g.selection.field) := by
  cases g with
  | serial g =>
    simp only [generate, SerialGenerator.generate]
    split <;> simp [period, selection, Selection.field]
  | listed g =>
    simp only [generate, Generator.generate]
    split <;> simp [period, selection]

/-- A generator that was asked has the other values left. -/
theorem left_generate (g : FieldGenerator) (s : Stamp) :
    (g.generate s).2.left s = (g.left s).tail := by
  cases g with
  | serial g =>
    by_cases hlt : Steps.highest g.steps.field s < (g.enter s).next
    · simp [generate, SerialGenerator.generate, left, hlt, Steps.progression_of_lt,
        SerialGenerator.enter_of_eq]
    · have hle := Steps.progression_of_le g.steps.stride_pos (not_lt.1 hlt)
      simp [generate, SerialGenerator.generate, left, hlt, hle, SerialGenerator.enter_of_eq]
  | listed g =>
    cases h : (g.enter s).rest <;>
      simp [generate, Generator.generate, left, h, Generator.enter_of_eq]

end FieldGenerator

/-! ### Years that step -/

/-- The next year, the distance to the one after it, and the last one. -/
structure SerialYears where
  next : Int
  interval : Nat
  last : Int

namespace SerialYears

/-- Every `interval`-th year from the first up to the last; the interval 0
counts as 1. -/
def of (first : Int) (interval : Nat) (last : Int) : SerialYears :=
  ⟨first, max interval 1, last⟩

/-- The years behind the next one. -/
def behind (years : SerialYears) : SerialYears :=
  { years with next := years.next + years.interval }

/-- The stamp with the next year, unless that is past the last one. -/
def generate (years : SerialYears) (s : Stamp) : Option Stamp × SerialYears :=
  if years.last < years.next then (none, years)
  else (some { s with year := years.next }, years.behind)

/-- The years that are left, counted. -/
def steps (years : SerialYears) : YearSteps :=
  .of years.next years.interval years.last

theorem steps_of (first : Int) (interval : Nat) (last : Int) :
    (of first interval last).steps = YearSteps.of first interval last := by
  simp [of, steps, YearSteps.of]

theorem left_of_lt {years : SerialYears} (h : years.last < years.next) : years.steps.left = 0 :=
  if_neg (by omega)

/-- Behind a year that is left there is one year less. -/
theorem steps_of_le {years : SerialYears} (hinterval : 0 < years.interval)
    (h : years.next ≤ years.last) :
    years.steps.left = years.behind.steps.left + 1 := by
  obtain ⟨next, interval, last⟩ := years
  simp only at hinterval h
  have hmax : max interval 1 = interval := by omega
  have hpos : (interval : Int) ≠ 0 := by omega
  simp only [steps, behind, YearSteps.of, hmax, if_pos h]
  split
  · rename_i hle
    have hnonneg := Int.ediv_nonneg (show 0 ≤ last - (next + interval) by omega)
      (Int.natCast_nonneg interval)
    have hcount : (last - next) / (interval : Int) = (last - (next + interval)) / interval + 1 := by
      rw [show last - next = (last - (next + interval)) + interval by omega,
        Int.add_ediv_of_dvd_right (Int.dvd_refl _), Int.ediv_self hpos]
    omega
  · rename_i hgt
    rw [Int.ediv_eq_zero_of_lt (by omega) (by omega)]
    rfl

theorem steps_behind {years : SerialYears} (hinterval : 0 < years.interval) :
    years.behind.steps =
      ⟨years.next + years.interval, years.interval, years.behind.steps.left⟩ := by
  simp only [steps, behind, YearSteps.of]
  congr 1
  omega

end SerialYears

/-! ### The loop -/

/-- A field of the chain: its generator, and the tests of the candidates as soon
as the field is set. -/
structure Stage where
  generator : FieldGenerator
  filters : List Filter

namespace Stage

/-- A field that was not asked yet. -/
def of (level : Level) : Stage :=
  ⟨.of level.selection, level.filters⟩

/-- What a field selects and tests, wherever its generator stands. -/
def level (stage : Stage) : Level :=
  ⟨stage.generator.selection, stage.filters⟩

@[simp] theorem level_of (level : Level) : (of level).level = level := by
  simp [of, Stage.level]

/-- The field of a stage. -/
def field (stage : Stage) : Field :=
  stage.level.field

/-- The values that a stage has left in the period of a stamp. -/
def left (stage : Stage) (s : Stamp) : List Nat :=
  stage.generator.left s

/-- A stage after it was asked for its next value. -/
def asked (stage : Stage) (s : Stamp) : Stage :=
  { stage with generator := (stage.generator.generate s).2 }

@[simp] theorem level_asked (stage : Stage) (s : Stamp) :
    (stage.asked s).level = stage.level := by
  simp [asked, Stage.level]

theorem period_asked (stage : Stage) (s : Stamp) :
    (stage.asked s).generator.period = some (s.above stage.field) :=
  stage.generator.period_generate s

theorem left_asked (stage : Stage) (s : Stamp) : (stage.asked s).left s = (stage.left s).tail :=
  stage.generator.left_generate s

/-- What is left does not change while the fields above stay. -/
theorem left_congr {stage : Stage} {s t : Stamp} (h : s.above stage.field = t.above stage.field) :
    stage.left s = stage.left t :=
  FieldGenerator.left_congr h

end Stage

/-- Where the loop stands in the fields. -/
structure Descent where
  years : SerialYears
  /-- The fields below the year that the loop has come down to, the finest
  first; the loop stands at the first one, or else at the year. -/
  upper : List Stage
  /-- The finer fields, the coarsest first. -/
  lower : List Stage
  builder : Stamp
  /-- The years entered since the last instance. -/
  barren : Nat

namespace Descent

/-- What comes after a value that is admitted: a candidate, if it is the value of
the finest field, or else the next finer field. -/
def descend (w : Descent) : Pass Descent (Option Stamp × Descent) :=
  match w.lower with
  | [] => .done (some w.builder, w)
  | stage :: lower => .again { w with upper := stage :: w.upper, lower }

/-- One pass: the field where the loop stands is asked for its next value. -/
def pass (threshold : Stamp) (patience : Nat) (w : Descent) :
    Pass Descent (Option Stamp × Descent) :=
  match w.upper with
  | [] =>
    match w.years.generate w.builder with
    | (none, years) => .done (none, { w with years })
    | (some builder, years) =>
      let counts := threshold.year ≤ builder.year
      let barren := if counts then w.barren + 1 else w.barren
      let w := { w with years, builder, barren }
      if counts ∧ patience < barren then .done (none, w)
      else if builder.year < threshold.year then .again w
      else w.descend
  | stage :: coarser =>
    match stage.generator.generate w.builder with
    | (none, generator) =>
      .again { w with upper := coarser, lower := { stage with generator } :: w.lower }
    | (some builder, generator) =>
      let w := { w with upper := { stage with generator } :: coarser, builder }
      if stage.level.admits threshold builder then w.descend else .again w

end Descent

/-! ### The chain of a rule -/

/-- The generators of a rule, between two calls for its next candidate. -/
structure Chain where
  years : SerialYears
  /-- The fields below the year, the coarsest first. -/
  stages : List Stage
  builder : Stamp
  /-- Candidates before it are passed over. -/
  threshold : Stamp
  /-- Whether the chain was called already. -/
  primed : Bool
  /-- Whether there are no more candidates. -/
  exhausted : Bool
  /-- The years entered since the last instance. -/
  barren : Nat
  /-- How many years may be entered without an instance. -/
  patience : Nat

namespace Chain

/-- The chain of a rule that starts at a moment. -/
def of (rule : Rule) (start : Moment) (limits : Limits) : Chain :=
  let stamp := Stamp.ofMoment start
  let threshold := rule.threshold stamp
  { years := .of threshold.year (Frequency.yearly.strideOf rule.frequency rule.interval)
      limits.maxYear
    stages := (rule.levels stamp threshold (!start.hasTime)).map Stage.of
    builder := .zero
    threshold
    primed := false
    exhausted := false
    barren := 0
    patience := limits.maxYearsBetweenInstances }

/-- Where the loop begins: at the year when the chain is called first, at the
finest field after that. -/
def enter (c : Chain) : Descent where
  years := c.years
  upper := if c.primed then c.stages.reverse else []
  lower := if c.primed then [] else c.stages
  builder := c.builder
  barren := c.barren

/-- The chain after the loop was left, which is exhausted if there was no
candidate. -/
def leave (c : Chain) (r : Option Stamp × Descent) : Option Stamp × Chain :=
  (r.1,
    { c with
      years := r.2.years
      stages := r.2.upper.reverse ++ r.2.lower
      builder := r.2.builder
      primed := true
      exhausted := r.1.isNone
      barren := r.2.barren })

/-- Whether a call for the next candidate returns, with an answer and the chain
after it. -/
inductive Returns (c : Chain) : Option Stamp × Chain → Prop
  | exhausted (h : c.exhausted = true) : Returns c (none, c)
  | loop {r : Option Stamp × Descent} (h : c.exhausted = false)
    (hends : Pass.Ends (Descent.pass c.threshold c.patience) (.again c.enter) r) :
    Returns c (c.leave r)

/-- A call returns one answer. -/
theorem Returns.unique {c : Chain} {r r' : Option Stamp × Chain} (h : c.Returns r)
    (h' : c.Returns r') : r = r' := by
  cases h with
  | exhausted h =>
    cases h' with
    | exhausted => rfl
    | loop h' => exact absurd h (by simp [h'])
  | loop h hends =>
    cases h' with
    | exhausted h' => exact absurd h (by simp [h'])
    | loop _ hends' => rw [hends.unique hends']

/-- The chain that passes over all candidates before a stamp. The threshold is
never lowered. -/
def raiseThreshold (c : Chain) (threshold : Stamp) : Chain :=
  if c.threshold < threshold then { c with threshold } else c

/-- The chain after a candidate became an instance. -/
def instanceFound (c : Chain) : Chain :=
  { c with barren := 0 }

/-- The states of the chain of a rule: it is called, its threshold is raised, and
its candidates become instances, in any order. -/
inductive Reachable (rule : Rule) (start : Moment) (limits : Limits) : Chain → Prop
  | start : Reachable rule start limits (.of rule start limits)
  | returns {c c' : Chain} {answer : Option Stamp} (h : Reachable rule start limits c)
    (hcall : c.Returns (answer, c')) : Reachable rule start limits c'
  | raiseThreshold {c : Chain} (h : Reachable rule start limits c) (threshold : Stamp) :
    Reachable rule start limits (c.raiseThreshold threshold)
  | instanceFound {c : Chain} (h : Reachable rule start limits c) :
    Reachable rule start limits c.instanceFound

end Chain

end Recurrence
