/-
# Generators that are asked again and again

A generator answers one stamp after the other, whether it lists the values of a
period when it enters the period or steps from one to the next. As long as the
stamps name one period the answers are the values that were left there, one by
one, and then none; the first stamp of another period starts over. So a list of
days hands out the days that it accepts as a test, and steps hand out the values
that lie a whole number of intervals from their anchor.

Key definitions: `Generation.answers`, `FieldGenerator.Drains`, `Steps.reached`.
Key theorems: `FieldGenerator.answers_within`, `FieldGenerator.drains_iff`,
`FieldGenerator.drains_days`, `Steps.values_eq_reached`, `SerialYears.answers_steps`,
`Steps.answers_reached`.
-/
import Recurrence.Expansion.Filter
import Recurrence.Proofs.Expansion.Chain
import Recurrence.Proofs.Expansion.Levels

namespace Recurrence

open Calendar

/-! ### Sequences of stamps -/

/-- The answers of a generator that is asked for one stamp after the other. -/
def Generation.answers {σ : Type} (generate : σ → Stamp → Option Stamp × σ) :
    σ → List Stamp → List (Option Stamp)
  | _, [] => []
  | g, s :: stamps => (generate g s).1 :: answers generate (generate g s).2 stamps

open Generation

namespace FieldGenerator

variable {g : FieldGenerator} {s t : Stamp}

/-- The generator after it was asked for one stamp after the other. -/
def after (g : FieldGenerator) (stamps : List Stamp) : FieldGenerator :=
  stamps.foldl (fun g s => (g.generate s).2) g

@[simp] theorem selection_after (g : FieldGenerator) (stamps : List Stamp) :
    (g.after stamps).selection = g.selection := by
  induction stamps generalizing g with
  | nil => rfl
  | cons s stamps ih => exact (ih _).trans (selection_generate g s)

/-- A generator stands in the period of the stamp that it was asked for last. -/
theorem period_after (g : FieldGenerator) (stamps : List Stamp) :
    (g.after stamps).period =
      (stamps.getLast?.map (·.above g.selection.field)).or g.period := by
  rcases List.eq_nil_or_concat' stamps with rfl | ⟨before, s, rfl⟩
  · rfl
  · rw [after, List.foldl_append, ← after, List.getLast?_concat]
    have hselection := selection_after g before
    exact (period_generate _ s).trans (congrArg (some <| s.above ·.field) hselection)

theorem drop_answers_append (g : FieldGenerator) (before run : List Stamp) :
    (answers generate g (before ++ run)).drop before.length =
      answers generate (g.after before) run := by
  induction before generalizing g with
  | nil => rfl
  | cons s before ih => exact ih _

/-- What is left after an answer, for any stamp of the same period. -/
theorem left_generate_of_above (h : t.above g.selection.field = s.above g.selection.field) :
    (g.generate s).2.left t = (g.left t).tail := by
  rw [left_congr h, ← left_generate]
  exact left_congr (by rwa [selection_generate])

/-- **Within a period the values that are left come one by one**, and then
none. -/
theorem answers_within {run : List Stamp} {period : Stamp}
    (h : ∀ s ∈ run, s.above g.selection.field = period) :
    answers generate g run =
      run.mapIdx fun i s => (g.left s)[i]?.map (s.set g.selection.field) := by
  induction run generalizing g with
  | nil => rfl
  | cons s run ih =>
    obtain ⟨hs, hrun⟩ := List.forall_mem_cons.1 h
    rw [answers, ih (by rwa [selection_generate]), List.mapIdx_cons, generate_fst,
      List.head?_eq_getElem?, selection_generate]
    congr 1
    rw [List.mapIdx_eq_mapIdx_iff]
    intro i hi
    have ht := hrun run[i] (List.getElem_mem hi)
    rw [left_generate_of_above (ht.trans hs.symm), List.getElem?_tail]

/-- A change of the period starts over, whatever was asked before. -/
theorem answers_afresh (hnew : g.period = none) {before run : List Stamp} {period : Stamp}
    (hchange : before.getLast?.map (·.above g.selection.field) ≠ some period)
    (h : ∀ s ∈ run, s.above g.selection.field = period) :
    (answers generate g (before ++ run)).drop before.length =
      run.mapIdx fun i s => (g.selection.values s)[i]?.map (s.set g.selection.field) := by
  rw [drop_answers_append, answers_within (by rwa [selection_after]), selection_after,
    List.mapIdx_eq_mapIdx_iff]
  intro i hi
  have hperiod : (g.after before).period ≠ some (run[i].above g.selection.field) := by
    rwa [period_after, hnew, Option.or_none, h _ (List.getElem_mem hi)]
  rw [left_of_ne (by rwa [selection_after]), selection_after]

/-! ### Drawing all values -/

/-- The stamps that a generator gives until it has none left, each time asked for
the stamp that it gave last. -/
inductive Drains : FieldGenerator → Stamp → List Stamp → Prop
  | done {g : FieldGenerator} {s : Stamp} (h : (g.generate s).1 = none) : Drains g s []
  | more {g : FieldGenerator} {s t : Stamp} {stamps : List Stamp}
    (h : (g.generate s).1 = some t) (hrest : Drains (g.generate s).2 t stamps) :
    Drains g s (t :: stamps)

/-- Once a value was given, what is left for the stamp that has it is what was
left behind it. -/
theorem left_generate_set {value : Nat} {rest : List Nat} (h : g.left s = value :: rest) :
    (g.generate s).2.left (s.set g.selection.field value) = rest := by
  have habove := Stamp.above_set s g.selection.field value
  rw [left_generate_of_above habove, left_congr habove, h, List.tail_cons]

/-- **A generator gives the values that are left, and comes to an end.** -/
theorem drains_iff {stamps : List Stamp} :
    g.Drains s stamps ↔ stamps = (g.left s).map (s.set g.selection.field) := by
  constructor
  · intro h
    induction h with
    | @done g s h =>
      rw [generate_fst, Option.map_eq_none_iff, List.head?_eq_none_iff] at h
      rw [h, List.map_nil]
    | @more g s t stamps h hrest ih =>
      rw [generate_fst, Option.map_eq_some_iff] at h
      obtain ⟨value, hhead, rfl⟩ := h
      obtain ⟨rest, hleft⟩ := List.head?_eq_some_iff.1 hhead
      rw [ih, left_generate_set hleft, hleft, List.map_cons, selection_generate,
        funext (Stamp.set_set s _ value)]
  · rintro rfl
    generalize hleft : g.left s = values
    induction values generalizing g s with
    | nil => exact .done (by rw [generate_fst, hleft]; rfl)
    | cons value rest ih =>
      refine .more (t := s.set g.selection.field value) (by rw [generate_fst, hleft]; rfl) ?_
      have hrest := ih (left_generate_set hleft)
      rwa [selection_generate, funext (Stamp.set_set s _ value)] at hrest

/-- **Drawn to its end in a month, a list of days gives the days that it accepts
as a test**, in their order and each once. -/
theorem drains_days {list : ByList} (hlist : g.selection = .list list) (hday : list.field = .day)
    (hnew : g.period ≠ some (s.above .day)) (stamps : List Stamp) :
    g.Drains s stamps ↔ stamps = ((List.range' 1 (monthLength s.year s.month)).filter
      fun day => (Filter.list list).accepts (s.set .day day)).map (s.set .day) := by
  have hfield : g.selection.field = .day := by rw [hlist, Selection.field, hday]
  have hvalues : list.values s = (List.range' 1 (monthLength s.year s.month)).filter
      fun day => (Filter.list list).accepts (s.set .day day) := by
    refine AscendingList.eq_of_mem_iff (list.pairwise_values s)
      (List.Pairwise.filter _ List.pairwise_lt_range') fun day => ?_
    rw [ByList.mem_values_days hday, List.mem_filter, List.mem_range'_1, Nat.add_comm,
      Nat.lt_succ_iff]
    rfl
  rw [drains_iff, left_of_ne (by rwa [hfield]), hlist, Selection.values, hvalues, ← hlist, hfield]

/-- The fifth Thursday and the last Sunday of February 2024. -/
theorem drains_days_leapFebruary :
    (ByList.weekdays [⟨5, .thursday⟩, ⟨-1, .sunday⟩] false).field = .day ∧
      (of (.list (.weekdays [⟨5, .thursday⟩, ⟨-1, .sunday⟩] false))).Drains ⟨2024, 2, 1, 9, 0, 0⟩
        [⟨2024, 2, 25, 9, 0, 0⟩, ⟨2024, 2, 29, 9, 0, 0⟩] :=
  ⟨rfl, (drains_days rfl rfl (by simp) _).2 (by decide)⟩

end FieldGenerator

/-! ### Steps in their periods -/

namespace Steps

/-- The values of a field in the period of a stamp that lie a whole number of
intervals from the anchor, counted in periods of the field's frequency across all
fields above it. -/
def reached (steps : Steps) (s : Stamp) : List Nat :=
  (List.range' (lowest steps.field) (highest steps.field s + 1 - lowest steps.field)).filter
    fun value => ((max steps.interval 1 : Nat) : Int) ∣
      (s.set steps.field value).periodIndex steps.field.frequency .monday -
        steps.anchor.periodIndex steps.field.frequency .monday

theorem distance_set (steps : Steps) (s : Stamp) (n : Nat) :
    steps.distance (s.set steps.field n) = steps.distance s := by
  obtain ⟨field, interval, anchor⟩ := steps
  cases field <;> rfl

/-- The values of a period are those that are reached in whole intervals. -/
theorem values_eq_reached {steps : Steps} {s : Stamp} (hs : s.NamesPeriod steps.field)
    (ha : steps.anchor.date.inCalendar = true) : steps.values s = steps.reached s := by
  refine AscendingList.eq_of_mem_iff (pairwise_progression _ steps.stride_pos _)
    (List.Pairwise.filter _ List.pairwise_lt_range') fun value => ?_
  have hdistance := distance_eq steps ((Stamp.namesPeriod_set value).2 hs) ha .monday
  rw [distance_set, Stamp.get_set] at hdistance
  rw [mem_values, hdistance, reached, List.mem_filter, List.mem_range'_1, decide_eq_true_eq]
  refine and_congr_left fun _ => ?_
  omega

end Steps

/-! ### Steps over the years -/

namespace SerialYears

variable {years : SerialYears}

/-- The years come one by one up to the last, and then none. -/
theorem answers_eq (years : SerialYears) (stamps : List Stamp) :
    answers generate years stamps = stamps.mapIdx fun i s =>
      let year := years.next + years.interval * i
      if year ≤ years.last then some { s with year } else none := by
  induction stamps generalizing years with
  | nil => rfl
  | cons s stamps ih =>
    obtain ⟨next, interval, last⟩ := years
    rw [answers, ih, List.mapIdx_cons]
    by_cases hpast : last < next
    · -- the years stand still, and all that would follow lie past the last one as well
      have hnone : ∀ i : Nat, ¬ next + interval * (i : Int) ≤ last := fun i => by
        have := Int.mul_nonneg (Int.natCast_nonneg interval) (Int.natCast_nonneg i)
        omega
      simp only [generate, if_pos hpast, if_neg (hnone _)]
    · have hyear (i : Nat) : next + interval + interval * (i : Int) =
          next + interval * ((i + 1 : Nat) : Int) :=
        calc next + interval + interval * (i : Int)
            = next + (interval * (i : Int) + interval) := by omega
          _ = next + interval * ((i + 1 : Nat) : Int) := by
            rw [Nat.cast_succ, Int.mul_add, Int.mul_one]
      simp only [generate, if_neg hpast, behind, Nat.cast_zero, Int.mul_zero, Int.add_zero,
        if_pos (not_lt.1 hpast), hyear]

theorem generate_steps_of_lt (h : years.last < years.next) (s : Stamp) :
    years.steps.generate s = (none, years.steps) := by
  have hnone : years.steps = ⟨years.next, max years.interval 1, 0⟩ :=
    congrArg (YearSteps.mk _ _) (left_of_lt h)
  rw [hnone]
  rfl

theorem generate_steps_of_le (hinterval : 0 < years.interval) (h : years.next ≤ years.last)
    (s : Stamp) :
    years.steps.generate s = (some { s with year := years.next }, years.behind.steps) := by
  have hsome : years.steps = ⟨years.next, years.interval, years.behind.steps.left + 1⟩ := by
    rw [← steps_of_le hinterval h]
    exact congrArg (YearSteps.mk years.next · years.steps.left) (Nat.max_eq_left hinterval)
  rw [hsome, steps_behind hinterval]
  rfl

/-- **Counting the years that are left answers as comparing with the last one.** -/
theorem answers_steps (hinterval : 0 < years.interval) (stamps : List Stamp) :
    answers YearSteps.generate years.steps stamps = answers generate years stamps := by
  induction stamps generalizing years with
  | nil => rfl
  | cons s stamps ih =>
    by_cases hpast : years.last < years.next
    · simp only [answers, generate_steps_of_lt hpast, generate, if_pos hpast, ih hinterval]
    · have hrest := @ih years.behind hinterval
      simp only [answers, generate_steps_of_le hinterval (not_lt.1 hpast), generate,
        if_neg hpast, hrest]

end SerialYears

namespace Steps

/-- **Steps enumerate the values a whole number of intervals from their anchor.**
Whatever was asked before, the stamps of a new period get the values that are
reached there, one by one, and then none; the years go on from the anchor's to
the last, whether the last one or the number of years is kept. -/
theorem answers_reached {anchor : Stamp} (hanchor : anchor.date.inCalendar = true)
    (interval : Nat) :
    (∀ (field : Field) (g : FieldGenerator), g.selection = .steps ⟨field, interval, anchor⟩ →
      g.period = none → ∀ (before run : List Stamp) (period : Stamp),
      before.getLast?.map (·.above field) ≠ some period →
      (∀ s ∈ run, s.above field = period ∧ s.NamesPeriod field) →
      (answers FieldGenerator.generate g (before ++ run)).drop before.length = run.mapIdx fun i s =>
        ((⟨field, interval, anchor⟩ : Steps).reached s)[i]?.map (s.set field)) ∧
    ∀ (last : Int) (stamps : List Stamp),
      let years := stamps.mapIdx fun i s =>
        let year := anchor.year + (max interval 1 : Nat) * i
        if year ≤ last then some { s with year } else none
      answers SerialYears.generate (.of anchor.year interval last) stamps = years ∧
        answers YearSteps.generate (.of anchor.year interval last) stamps = years := by
  constructor
  · intro field g hg hnew before run period hchange hrun
    have hfield : g.selection.field = field := by rw [hg]; rfl
    rw [FieldGenerator.answers_afresh hnew (hfield ▸ hchange)
      (hfield ▸ fun s hs => (hrun s hs).1), hg, List.mapIdx_eq_mapIdx_iff]
    intro i hi
    have hvalues : (⟨field, interval, anchor⟩ : Steps).values run[i] = reached _ run[i] :=
      values_eq_reached (hrun _ (List.getElem_mem hi)).2 hanchor
    simp only [Selection.values, hvalues, Selection.field]
  · intro last stamps
    have hyears := SerialYears.answers_eq (.of anchor.year interval last) stamps
    refine ⟨hyears, ?_⟩
    have hinterval : 0 < (SerialYears.of anchor.year interval last).interval := by
      simp [SerialYears.of]
    rw [← SerialYears.steps_of, SerialYears.answers_steps hinterval]
    exact hyears

/-- Every tenth day from 31 January 2004, asked for in February after January, and
every fourth year up to 2010. -/
theorem answers_reached_leapFebruary :
    (⟨2004, 1, 31⟩ : Date).inCalendar = true ∧
    (answers FieldGenerator.generate (.of (.steps ⟨.day, 10, ⟨2004, 1, 31, 9, 0, 0⟩⟩))
      [⟨2004, 1, 1, 0, 0, 0⟩, ⟨2004, 2, 1, 0, 0, 0⟩, ⟨2004, 2, 10, 0, 0, 0⟩,
        ⟨2004, 2, 20, 0, 0, 0⟩]).drop 1 =
      [some ⟨2004, 2, 10, 0, 0, 0⟩, some ⟨2004, 2, 20, 0, 0, 0⟩, none] ∧
    answers SerialYears.generate (.of 2004 4 2010) [.zero, .zero, .zero] =
      [some ⟨2004, 0, 0, 0, 0, 0⟩, some ⟨2008, 0, 0, 0, 0, 0⟩, none] := by
  have hanchor : (⟨2004, 1, 31, 9, 0, 0⟩ : Stamp).date.inCalendar = true := by decide
  have hperiod : ∀ s ∈ ([⟨2004, 2, 1, 0, 0, 0⟩, ⟨2004, 2, 10, 0, 0, 0⟩,
      ⟨2004, 2, 20, 0, 0, 0⟩] : List Stamp),
      s.above .day = ⟨2004, 2, 0, 0, 0, 0⟩ ∧ s.NamesPeriod .day := by
    intro s hs
    simp only [List.mem_cons, List.not_mem_nil, or_false] at hs
    obtain rfl | rfl | rfl := hs <;>
      exact ⟨rfl, by decide, Nat.zero_le _, Nat.zero_le _, Nat.zero_le _⟩
  refine ⟨hanchor, ?_, ?_⟩
  · exact ((answers_reached hanchor 10).1 .day (.of _) rfl rfl [⟨2004, 1, 1, 0, 0, 0⟩] _ _
      (by decide) hperiod).trans (by decide)
  · exact ((answers_reached hanchor 4).2 2010 _).1.trans (by decide)

end Steps

end Recurrence
