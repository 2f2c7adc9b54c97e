/-
# How the words of vCalendar rules narrow them

The words behind a code are all weekdays, all numbers, or runs of numbers and of weekdays
in turn. They become one part of the rule in its present form, which lists what they say
in their order; of runs it lists every weekday with every number of the run before it.

Key definitions: `Legacy.Narrowing`, `Legacy.Narrowing.tokens`, `Legacy.Narrowing.restrict`.
Key theorems: `Legacy.positions?_runs`, `Legacy.narrowing?_tokens`.
-/
import Recurrence.Proofs.Legacy.Words
import Recurrence.Proofs.Rule.Texts

namespace Recurrence.Legacy

open Text

/-! ### What words say -/

/-- What the words of a rule say, by the code of the rule. A run is some numbers and the
weekdays they apply to. -/
inductive Narrowing : Code → Type
  | daily : Narrowing .daily
  | weekly (days : List Weekday) : Narrowing .weekly
  | monthDays (days : List Int) : Narrowing .monthDays
  | monthPositions (runs : List (List Int × List Weekday)) : Narrowing .monthPositions
  | yearDays (days : List Int) : Narrowing .yearDays
  | yearMonths (months : List Nat) : Narrowing .yearMonths

/-- The weekdays of a run with their numbers. -/
def paired (run : List Int × List Weekday) : List OrdinalWeekday :=
  run.2.flatMap fun day => run.1.map fun n => ⟨n, day⟩

namespace Narrowing

variable {code : Code}

/-- The tokens that say it. -/
def tokens : Narrowing code → List Token
  | daily => []
  | weekly days => days.map .weekday
  | monthDays days | yearDays days => days.map .number
  | yearMonths months => months.map fun n : Nat => .number n
  | monthPositions runs => runs.flatMap fun run => run.1.map .number ++ run.2.map .weekday

/-- The rule with what the words say in the list of its code. -/
def restrict : Narrowing code → Rule → Rule
  | daily, rule => rule
  | weekly days, rule => { rule with byDay := days.map .every }
  | monthDays days, rule => { rule with byMonthDay := days }
  | yearDays days, rule => { rule with byYearDay := days }
  | yearMonths months, rule => { rule with byMonth := months }
  | monthPositions runs, rule => { rule with byDay := runs.flatMap paired }

/-- Whether the numbers lie in the range of their list, and no run lacks its numbers or
its weekdays. -/
def InRange : Narrowing code → Prop
  | daily | weekly _ => True
  | monthDays days => ∀ n ∈ days, 1 ≤ n.natAbs ∧ n.natAbs ≤ 31
  | yearDays days => ∀ n ∈ days, 1 ≤ n.natAbs ∧ n.natAbs ≤ 366
  | yearMonths months => ∀ n ∈ months, 1 ≤ n ∧ n ≤ 12
  | monthPositions runs => ∀ run ∈ runs, run.1 ≠ [] ∧ run.2 ≠ [] ∧
      ∀ n ∈ run.1, 1 ≤ n.natAbs ∧ n.natAbs ≤ 53

/-- The part that says it, unless there are no words. -/
def said : Narrowing code → List RulePart
  | daily => []
  | weekly days => Rule.listSaid .byDay (days.map .every)
  | monthDays days => Rule.listSaid .byMonthDay days
  | yearDays days => Rule.listSaid .byYearDay days
  | yearMonths months => Rule.listSaid .byMonth months
  | monthPositions runs => Rule.listSaid .byDay (runs.flatMap paired)

end Narrowing

/-! ### Numbers and weekdays -/

theorem numbers?_map (ns : List Int) : numbers? (ns.map .number) = some ns := by
  induction ns with
  | nil => rfl
  | cons n ns ih =>
    unfold numbers? at ih ⊢
    rw [List.map_cons, List.mapM_cons, ih]
    rfl

theorem weekdays?_map (letters : List (List Char)) :
    weekdays? (letters.map .weekday) = some letters := by
  induction letters with
  | nil => rfl
  | cons first letters ih =>
    unfold weekdays? at ih ⊢
    rw [List.map_cons, List.mapM_cons, ih]
    rfl

/-! ### Runs -/

/-- Numbers are added to the run that has no weekdays yet, and begin a new one behind
weekdays. -/
theorem positions?_numbers {ns : List Int} (hne : ns ≠ []) (before : List Int) (paired : Bool)
    (rest : List Word) : positions? before paired (ns.map .number ++ rest) =
      positions? (if paired then ns else before ++ ns) false rest := by
  induction ns generalizing before paired with
  | nil => exact absurd rfl hne
  | cons n ns ih =>
    rw [List.map_cons, List.cons_append, positions?]
    cases ns with
    | nil => rfl
    | cons m ns =>
      rw [ih (List.cons_ne_nil m ns)]
      cases paired <;> simp

/-- The weekdays of a run are taken with each of its numbers. -/
theorem positions?_weekdays {ns : List Int} (hns : ns ≠ []) {days : List Weekday}
    (hne : days ≠ []) (paired : Bool) (rest : List Word) :
    positions? ns paired (days.map (fun day => .weekday day.code.toList) ++ rest) =
      (positions? ns true rest).map
        ((days.flatMap fun day => ns.map fun n => (n, day.code.toList)) ++ ·) := by
  induction days generalizing paired with
  | nil => exact absurd rfl hne
  | cons day days ih =>
    have hsome : ns.isEmpty = false := by simpa using hns
    rw [List.map_cons, List.cons_append, positions?, hsome, List.flatMap_cons]
    cases days with
    | nil => simp
    | cons second days =>
      rw [ih (List.cons_ne_nil second days)]
      simp [Function.comp_def]

/-- **Runs are told apart**: the numbers of each apply to its weekdays and to no others.
Before the first run stands no number, before the others the run before them. -/
theorem positions?_runs {runs : List (List Int × List Weekday)}
    (h : ∀ run ∈ runs, run.1 ≠ [] ∧ run.2 ≠ []) {before : List Int} {paired : Bool}
    (hbefore : paired = true ∨ before = [] ∧ runs ≠ []) :
    positions? before paired ((runs.flatMap fun run =>
        run.1.map Token.number ++ run.2.map Token.weekday).map Token.word) =
      some (runs.flatMap fun run =>
        run.2.flatMap fun day => run.1.map fun n => (n, day.code.toList)) := by
  induction runs generalizing before paired with
  | nil =>
    obtain rfl := hbefore.resolve_right fun hno => hno.2 rfl
    rfl
  | cons run runs ih =>
    rw [List.forall_mem_cons] at h
    have hrun : (if paired then run.1 else before ++ run.1) = run.1 := by
      rcases hbefore with rfl | ⟨rfl, -⟩
      · rfl
      · simp
    rw [List.flatMap_cons, List.map_append, List.map_append, List.map_map, List.map_map,
      List.append_assoc]
    show positions? before paired (run.1.map .number ++
      (run.2.map (fun day => .weekday day.code.toList) ++ _)) = _
    rw [positions?_numbers h.1.1, hrun, positions?_weekdays h.1.1 h.1.2, ih h.2 (Or.inl rfl)]
    rfl

/-! ### The part of the words -/

namespace Narrowing

variable {code : Code}

/-- The words become what is written of the list they say, if that is so of words that
are there. -/
theorem narrowing?_listSaid {α : Type} {kind : List α → RulePart} {values : List α}
    {tokens : List Token} (hsame : tokens = [] ↔ values = [])
    (h : ¬ (tokens.map Token.word).isEmpty = true →
      narrowing? code (tokens.map Token.word) = some [(kind values).chars]) :
    narrowing? code (tokens.map Token.word) =
      some ((Rule.listSaid kind values).map RulePart.chars) := by
  by_cases hempty : tokens = []
  · rw [hempty, hsame.1 hempty]
    rfl
  · have hvalues : ¬ values.isEmpty = true := by simpa using mt hsame.2 hempty
    rw [h (by simpa using hempty), Rule.listSaid, if_neg hvalues, List.map_singleton]

/-- A weekday is written behind its number. -/
theorem chars_paired {runs : List (List Int × List Weekday)}
    (h : ∀ run ∈ runs, ∀ n ∈ run.1, n ≠ 0) :
    (runs.flatMap fun run => run.2.flatMap fun day => run.1.map fun n => (n, day.code.toList)).map
        (fun day => signed day.1 ++ day.2) =
      (runs.flatMap paired).map OrdinalWeekday.chars := by
  simp only [paired, List.map_flatMap, List.map_map]
  refine List.flatMap_congr fun run hrun => List.flatMap_congr fun day _ => ?_
  refine List.map_congr_left fun n hn => ?_
  exact (if_neg (h run hrun n hn)).symm

/-- A number that is not negative is written without a sign. -/
theorem signed_natCast (n : Nat) : signed n = Decimal.padded 0 n := by
  have hnot : ¬ (n : Int) < 0 := by omega
  rw [signed, Decimal.integer, String.toList_ofList, if_neg hnot, Int.natAbs_natCast]

/-- **The words become the part that says what they say.** -/
theorem narrowing?_tokens (narrowing : Narrowing code) (h : narrowing.InRange) :
    narrowing? code (narrowing.tokens.map Token.word) =
      some (narrowing.said.map RulePart.chars) := by
  have hnumbers : ∀ ns : List Int, numbers? ((ns.map Token.number).map Token.word) = some ns :=
    fun ns => List.map_map.symm ▸ numbers?_map ns
  cases narrowing with
  | daily => rfl
  | weekly days =>
    refine narrowing?_listSaid (by simp [tokens]) fun hne => ?_
    have hletters : weekdays? ((days.map Token.weekday).map Token.word) =
        some ((days.map .every).map OrdinalWeekday.chars) := by
      rw [List.map_map, List.map_map, ← weekdays?_map, List.map_map]
      rfl
    rw [narrowing?, if_neg hne]
    simp only [tokens, hletters]
    rfl
  | monthDays days | yearDays days =>
    refine narrowing?_listSaid (by simp [tokens]) fun hne => ?_
    rw [narrowing?, if_neg hne]
    simp only [tokens, hnumbers]
    rfl
  | yearMonths months =>
    refine narrowing?_listSaid (by simp [tokens]) fun hne => ?_
    have hmonths : numbers? ((months.map fun n : Nat => Token.number n).map Token.word) =
        some (months.map fun n : Nat => (n : Int)) := by
      have := hnumbers (months.map fun n : Nat => (n : Int))
      simpa only [List.map_map, Function.comp_def] using this
    rw [narrowing?, if_neg hne]
    simp only [tokens, hmonths, Option.map_some]
    simp only [List.map_map, Function.comp_def, signed_natCast]
    rfl
  | monthPositions runs =>
    have hzero : ∀ run ∈ runs, ∀ n ∈ run.1, n ≠ 0 := fun run hrun n hn => by
      have := (h run hrun).2.2 n hn
      omega
    refine narrowing?_listSaid ?_ fun hne => ?_
    · cases runs with
      | nil => exact iff_of_true rfl rfl
      | cons run runs =>
        obtain ⟨hnumbers, hdays, -⟩ := h run List.mem_cons_self
        obtain ⟨n, ns, hn⟩ := List.exists_cons_of_ne_nil hnumbers
        obtain ⟨day, days, hday⟩ := List.exists_cons_of_ne_nil hdays
        exact iff_of_false (by simp [tokens, hn]) (by simp [paired, hn, hday])
    · have hruns : runs ≠ [] := by
        rintro rfl
        exact hne rfl
      have hpairs := positions?_runs (fun run hrun => ⟨(h run hrun).1, (h run hrun).2.1⟩)
        (Or.inr ⟨rfl, hruns⟩ : false = true ∨ [] = [] ∧ runs ≠ [])
      rw [narrowing?, if_neg hne]
      simp only [tokens, hpairs, Option.map_some]
      rw [chars_paired hzero]
      rfl

/-- What words say can be written. -/
theorem writable_of_mem_said (narrowing : Narrowing code) (h : narrowing.InRange) :
    ∀ part ∈ narrowing.said, part.Writable := by
  cases narrowing with
  | daily => simp [said]
  | weekly days =>
    refine Rule.writable_of_mem_listSaid (by simp) (by simp [RulePart.tokens]) ?_
    simp [RulePart.InRange, OrdinalWeekday.every]
  | monthDays days | yearDays days | yearMonths months =>
    exact Rule.writable_of_mem_listSaid (by simp) (by simp [RulePart.tokens]) h
  | monthPositions runs =>
    refine Rule.writable_of_mem_listSaid (by simp) (by simp [RulePart.tokens]) ?_
    intro entry hentry
    obtain ⟨run, hrun, hentry⟩ := List.mem_flatMap.1 hentry
    obtain ⟨day, -, hentry⟩ := List.mem_flatMap.1 hentry
    obtain ⟨n, hn, rfl⟩ := List.mem_map.1 hentry
    have hbounds := (h run hrun).2.2 n hn
    show -53 ≤ n ∧ n ≤ 53
    omega

/-- The words become one part at most. -/
theorem keys_said (narrowing : Narrowing code) :
    ∃ key, (key = .byDay ∨ key = .byMonthDay ∨ key = .byYearDay ∨ key = .byMonth) ∧
      (narrowing.said.map RulePart.key).Sublist [key] := by
  have hlist : ∀ {α : Type} (kind : List α → RulePart) (values : List α),
      ((Rule.listSaid kind values).map RulePart.key).Sublist [(kind values).key] := by
    intro α kind values
    unfold Rule.listSaid
    split <;> simp
  cases narrowing with
  | daily => exact ⟨.byDay, Or.inl rfl, List.nil_sublist _⟩
  | weekly | monthPositions => exact ⟨.byDay, Or.inl rfl, hlist _ _⟩
  | monthDays => exact ⟨.byMonthDay, Or.inr (Or.inl rfl), hlist _ _⟩
  | yearDays => exact ⟨.byYearDay, Or.inr (Or.inr (Or.inl rfl)), hlist _ _⟩
  | yearMonths => exact ⟨.byMonth, Or.inr (Or.inr (Or.inr rfl)), hlist _ _⟩

end Narrowing

end Recurrence.Legacy
