/-
# The cascade of fields

The candidates of a rule are found field by field, from the year down. Each
value of a field opens a period of the next finer field; a value that lies
before the threshold or fails a filter is passed over with everything below it.
A walk through the cascade is kept as one position per field, so that the next
candidate is found from where the last one was. The years may run on without
an instance only for a limited number of years, after which the search is given
up.

What a walk has still to visit is a list (`Cascade.pending`); each step takes
its head. That list is never built, it only shows that every search ends.

Key definitions: `Level`, `Position`, `Level.search`, `Level.resume`, `Cascade`,
`Cascade.next`, `Cascade.pending`.
Key theorems: `Level.listed_of_search`, `Level.unvisited_of_resume`,
`Cascade.pending_of_next`.
-/
import Recurrence.Expansion.Filter
import Recurrence.Expansion.Selection

namespace Recurrence

/-- Bounds on how far an expansion looks for its next instance. -/
structure Limits where
  /-- How many years in a row may be without an instance. -/
  maxYearsBetweenInstances : Nat
  /-- The last year that may hold an instance. -/
  maxYear : Int

/-- The limits where none are given. -/
def Limits.standard : Limits := ⟨1000, 9999⟩

/-- A field below the year: where it takes its values from, and the tests of
the candidates as soon as it is set. -/
structure Level where
  selection : Selection
  filters : List Filter

/-- Where a walk stands in a field: the value it is at, and the values of the
period that come after it. -/
structure Position where
  value : Nat
  rest : List Nat

namespace Level

/-- The field of a level. -/
def field (level : Level) : Field :=
  level.selection.field

/-- Whether the walk goes on below a stamp whose fields are set down to the
level's: it is not before the threshold and passes the tests. -/
def admits (threshold : Stamp) (level : Level) (s : Stamp) : Bool :=
  !(s.truncate level.field < threshold.truncate level.field) &&
    level.filters.all (·.accepts s)

/-! ### The candidates as a list -/

/-- The candidates below the values of a level that are admitted. -/
def spread (threshold : Stamp) (level : Level) (below : Stamp → List Stamp) (s : Stamp)
    (values : List Nat) : List Stamp :=
  values.flatMap fun value =>
    let t := s.set level.field value
    if level.admits threshold t then below t else []

/-- The candidates below a stamp. -/
def listed (threshold : Stamp) : List Level → Stamp → List Stamp
  | [], s => [s]
  | level :: finer, s =>
    level.spread threshold (listed threshold finer) s (level.selection.values s)

/-- The candidates below a stamp that come after a position. -/
def unvisited (threshold : Stamp) : List Level → List Position → Stamp → List Stamp
  | level :: finer, p :: ps, s =>
    unvisited threshold finer ps (s.set level.field p.value) ++
      level.spread threshold (listed threshold finer) s p.rest
  | _, _, _ => []

/-! ### The walk -/

/-- The first candidate below one of the values of a level, and its
position. -/
def walk (threshold : Stamp) (level : Level)
    (search : Stamp → Option (Stamp × List Position)) (s : Stamp) :
    List Nat → Option (Stamp × List Position)
  | [] => none
  | value :: rest =>
    let t := s.set level.field value
    if level.admits threshold t then
      match search t with
      | some (found, ps) => some (found, ⟨value, rest⟩ :: ps)
      | none => walk threshold level search s rest
    else walk threshold level search s rest

/-- The first candidate below a stamp, and its position. -/
def search (threshold : Stamp) : List Level → Stamp → Option (Stamp × List Position)
  | [], s => some (s, [])
  | level :: finer, s =>
    walk threshold level (fun t => search threshold finer t) s (level.selection.values s)

/-- The first candidate below a stamp that comes after a position, and its own
position. -/
def resume (threshold : Stamp) :
    List Level → List Position → Stamp → Option (Stamp × List Position)
  | level :: finer, p :: ps, s =>
    match resume threshold finer ps (s.set level.field p.value) with
    | some (found, ps) => some (found, p :: ps)
    | none => walk threshold level (search threshold finer) s p.rest
  | _, _, _ => none

/-! ### The walk visits the list -/

/-- What a search below a stamp has to do with a list of candidates: it finds
the head and stands before the tail. -/
def Finds (threshold : Stamp) (finer : List Level) (t : Stamp) (candidates : List Stamp) :
    Option (Stamp × List Position) → Prop
  | none => candidates = []
  | some (found, ps) => candidates = found :: unvisited threshold finer ps t

theorem walk_finds (threshold : Stamp) (level : Level) (finer : List Level) (s : Stamp)
    (h : ∀ t, Finds threshold finer t (listed threshold finer t) (search threshold finer t))
    (values : List Nat) :
    Finds threshold (level :: finer) s
      (level.spread threshold (listed threshold finer) s values)
      (walk threshold level (search threshold finer) s values) := by
  induction values with
  | nil => simp [walk, spread, Finds]
  | cons value rest ih =>
    have ht := h (s.set level.field value)
    simp only [walk, spread, List.flatMap_cons] at ih ⊢
    split
    · cases hs : search threshold finer (s.set level.field value) with
      | none =>
        rw [hs] at ht
        simp only [Finds] at ht
        simpa [ht] using ih
      | some found =>
        rw [hs] at ht
        simp only [Finds] at ht
        simp [Finds, ht, unvisited, spread]
    · simpa using ih

/-- **A search finds the first candidate and stands before the others.** -/
theorem listed_of_search (threshold : Stamp) (levels : List Level) (s : Stamp) :
    Finds threshold levels s (listed threshold levels s) (search threshold levels s) := by
  induction levels generalizing s with
  | nil => simp [search, listed, Finds, unvisited]
  | cons level finer ih => exact walk_finds threshold level finer s ih _

/-- **A resumed walk finds the first candidate it has not visited.** -/
theorem unvisited_of_resume (threshold : Stamp) (levels : List Level) (ps : List Position)
    (s : Stamp) :
    Finds threshold levels s (unvisited threshold levels ps s)
      (resume threshold levels ps s) := by
  induction levels generalizing ps s with
  | nil => simp [resume, unvisited, Finds]
  | cons level finer ih =>
    cases ps with
    | nil => simp [resume, unvisited, Finds]
    | cons p ps =>
      have hp := ih ps (s.set level.field p.value)
      simp only [resume, unvisited]
      cases hr : resume threshold finer ps (s.set level.field p.value) with
      | none =>
        rw [hr] at hp
        simp only [Finds] at hp
        simpa [hp] using
          walk_finds threshold level finer s (listed_of_search threshold finer) p.rest
      | some found =>
        rw [hr] at hp
        simp only [Finds] at hp
        simp [Finds, hp, unvisited]

end Level

/-! ### Years -/

/-- The stamp of a year whose finer fields are not set. -/
def Stamp.ofYear (year : Int) : Stamp :=
  { Stamp.zero with year }

/-- A walk through the candidates of a rule. -/
structure Cascade where
  /-- The years that come after the current one. -/
  years : YearSteps
  /-- The fields below the year. -/
  levels : List Level
  /-- The current year and the position in it. -/
  current : Option (Int × List Position)
  /-- Candidates before it are passed over. -/
  threshold : Stamp
  /-- The years entered since the last instance, the current one included. -/
  barren : Nat
  /-- How many years may be entered without an instance. -/
  patience : Nat
  /-- Whether the walk is over. -/
  finished : Bool

namespace Cascade

/-- The candidates of some years. -/
def ofYears (threshold : Stamp) (levels : List Level) (years : List Int) : List Stamp :=
  years.flatMap fun year =>
    if year < threshold.year then [] else Level.listed threshold levels (.ofYear year)

/-- The candidates that the walk has still to visit, if it is not given up. -/
def pending (c : Cascade) : List Stamp :=
  (match c.current with
    | some (year, ps) => Level.unvisited c.threshold c.levels ps (.ofYear year)
    | none => []) ++
    ofYears c.threshold c.levels c.years.toList

/-- The first candidate of the years to come, and the walk that stands at it.
Each year from the threshold on counts until an instance resets the count; one
year too many ends the walk. -/
def enterYears (c : Cascade) (next : Int) (barren : Nat) : Nat → Option (Stamp × Cascade)
  | 0 => none
  | left + 1 =>
    if next < c.threshold.year then
      enterYears c (next + c.years.interval) barren left
    else if c.patience < barren + 1 then none
    else
      match Level.search c.threshold c.levels (.ofYear next) with
      | some (found, ps) =>
        some (found,
          { c with
            years := ⟨next + c.years.interval, c.years.interval, left⟩
            current := some (next, ps)
            barren := barren + 1 })
      | none => enterYears c (next + c.years.interval) (barren + 1) left

/-- The next candidate of the current year, and the walk that stands at it. -/
def stayInYear (c : Cascade) : Option (Stamp × Cascade) :=
  match c.current with
  | some (year, ps) =>
    (Level.resume c.threshold c.levels ps (.ofYear year)).map fun (found, ps) =>
      (found, { c with current := some (year, ps) })
  | none => none

/-- The next candidate and the walk that stands at it. -/
def step? (c : Cascade) : Option (Stamp × Cascade) :=
  if c.finished then none
  else
    match c.stayInYear with
    | some found => some found
    | none => c.enterYears c.years.next c.barren c.years.left

/-- The next candidate, and the walk that stands at it or is over. -/
def next (c : Cascade) : Option Stamp × Cascade :=
  match c.step? with
  | some (found, c) => (some found, c)
  | none => (none, { c with finished := true })

/-- The walk that passes over all candidates before a stamp. The threshold is
never lowered. -/
def raiseThreshold (c : Cascade) (threshold : Stamp) : Cascade :=
  if c.threshold < threshold then { c with threshold } else c

/-- The walk after a candidate became an instance. -/
def instanceFound (c : Cascade) : Cascade :=
  { c with barren := 0 }

/-! ### Every step takes the head of what is pending -/

theorem toList_cons (next : Int) (interval left : Nat) :
    (⟨next, interval, left + 1⟩ : YearSteps).toList =
      next :: (⟨next + interval, interval, left⟩ : YearSteps).toList := by
  simp only [YearSteps.toList, List.range_succ_eq_map, List.map_cons, List.map_map]
  congr 1
  · simp
  · apply List.map_congr_left
    intro k _
    simp only [Function.comp, Nat.succ_eq_add_one]
    push_cast
    rw [Int.mul_add, Int.mul_one]
    omega

theorem pending_of_enterYears {c c' : Cascade} {found : Stamp} {next : Int} {barren left : Nat}
    (h : c.enterYears next barren left = some (found, c')) :
    ofYears c.threshold c.levels (⟨next, c.years.interval, left⟩ : YearSteps).toList =
      found :: c'.pending := by
  induction left generalizing next barren with
  | zero => simp [enterYears] at h
  | succ left ih =>
    rw [toList_cons]
    simp only [enterYears] at h
    split at h
    · rename_i hlt
      simpa [ofYears, hlt] using ih h
    · rename_i hge
      split at h
      · simp at h
      · have hs := Level.listed_of_search c.threshold c.levels (.ofYear next)
        split at h
        · rename_i found' ps heq
          rw [heq] at hs
          simp only [Option.some.injEq, Prod.mk.injEq] at h
          obtain ⟨rfl, rfl⟩ := h
          simp only [Level.Finds] at hs
          simp [ofYears, hge, hs, pending]
        · rename_i heq
          rw [heq] at hs
          simp only [Level.Finds] at hs
          simpa [ofYears, hge, hs] using ih h

/-- **A step takes the head of what is pending.** -/
theorem pending_of_step {c c' : Cascade} {found : Stamp} (h : c.step? = some (found, c')) :
    c.pending = found :: c'.pending := by
  unfold step? at h
  split at h
  · simp at h
  · split at h
    · rename_i heq
      simp only [Option.some.injEq] at h
      subst h
      unfold stayInYear at heq
      split at heq
      · rename_i year ps hcur
        have hr := Level.unvisited_of_resume c.threshold c.levels ps (.ofYear year)
        obtain ⟨⟨found', ps'⟩, hres, heq⟩ := Option.map_eq_some_iff.1 heq
        simp only [Prod.mk.injEq] at heq
        obtain ⟨rfl, rfl⟩ := heq
        rw [hres] at hr
        simp only [Level.Finds] at hr
        simp [pending, hcur, hr]
      · simp at heq
    · rename_i hstay
      have hy := pending_of_enterYears h
      have hnil : (match c.current with
          | some (year, ps) => Level.unvisited c.threshold c.levels ps (.ofYear year)
          | none => []) = [] := by
        unfold stayInYear at hstay
        split
        · rename_i year ps hcur
          have hr := Level.unvisited_of_resume c.threshold c.levels ps (.ofYear year)
          simp only [hcur, Option.map_eq_none_iff] at hstay
          rw [hstay] at hr
          exact hr
        · rfl
      rw [pending, hnil, List.nil_append]
      exact hy

theorem pending_of_next {c c' : Cascade} {found : Stamp} (h : c.next = (some found, c')) :
    c.pending = found :: c'.pending := by
  unfold next at h
  split at h
  · rename_i hs
    simp only [Prod.mk.injEq, Option.some.injEq] at h
    obtain ⟨rfl, rfl⟩ := h
    exact pending_of_step hs
  · simp at h

/-- How many candidates the walk has still to visit. -/
def size (c : Cascade) : Nat :=
  c.pending.length

theorem size_of_next {c c' : Cascade} {found : Stamp} (h : c.next = (some found, c')) :
    c.size = c'.size + 1 := by
  simp [size, pending_of_next h]

end Cascade

end Recurrence
