/-
# The candidates as a list

The fields of a rule are listed one below the other, each for the fields above
it. A stamp is listed exactly if every level takes its value, and the list
ascends because each level's values do. Raising the threshold takes the stamps
before it from the list and nothing else, whether the walk has not begun or
stands somewhere in it.

Key definitions: `Level.Spans`, `Level.Takes`.
Key theorems: `Level.mem_listed`, `Level.pairwise_listed`, `Level.listed_raise`,
`Level.unvisited_raise`.
-/
import Recurrence.Expansion.Cascade
import Recurrence.Proofs.Expansion.Values

namespace Recurrence

/-! ### Fields from the coarsest to the finest -/

/-- The next finer field. -/
def Field.next : Field → Option Field
  | .month => some .day
  | .day => some .hour
  | .hour => some .minute
  | .minute => some .second
  | .second => none

namespace Stamp

/-- What of a stamp is set when a field is to be chosen; all of it when none is
left. -/
def fixed (s : Stamp) : Option Field → Stamp
  | some field => s.above field
  | none => s

@[simp] theorem above_set (s : Stamp) (f : Field) (n : Nat) : (s.set f n).above f = s.above f := by
  cases f <;> rfl

@[simp] theorem get_set (s : Stamp) (f : Field) (n : Nat) : (s.set f n).get f = n := by
  cases f <;> rfl

theorem set_set (s : Stamp) (f : Field) (m n : Nat) : (s.set f m).set f n = s.set f n := by
  cases f <;> rfl

theorem fixed_next_iff (a b : Stamp) (f : Field) :
    a.fixed f.next = b.fixed f.next ↔ a.above f = b.above f ∧ a.get f = b.get f := by
  cases f <;> simp only [Field.next, fixed, above, get, ext_iff', and_true] <;> omega

theorem truncate_eq_of_fixed {a b : Stamp} {f : Field} (h : a.fixed f.next = b.fixed f.next) :
    a.truncate f = b.truncate f := by
  rw [fixed_next_iff] at h
  cases f <;> simp only [above, get, truncate, ext_iff', and_true] at h ⊢ <;> omega

/-- Stamps that agree above a field are ordered by it, if they differ there. -/
theorem lt_of_get_lt {a b : Stamp} {f : Field} (h : a.above f = b.above f)
    (hlt : a.get f < b.get f) : a < b := by
  rw [lt_iff]
  cases f <;> simp only [above, get, ext_iff', and_true] at h hlt <;> omega

theorem truncate_second (s : Stamp) : s.truncate .second = s := rfl

end Stamp

/-! ### What a level looks at -/

/-- The values of a period depend on the fields that name the period. -/
theorem Selection.values_above (selection : Selection) (s : Stamp) :
    selection.values (s.above selection.field) = selection.values s := by
  cases selection with
  | steps steps =>
    obtain ⟨field, interval, anchor⟩ := steps
    cases field <;> rfl
  | list list => cases list <;> rfl

/-- A test depends on the fields down to its own. -/
theorem Filter.accepts_truncate (filter : Filter) (s : Stamp) :
    filter.accepts (s.truncate filter.field) = filter.accepts s := by
  cases filter with
  | weeks interval weekStart reference => rfl
  | list list => cases list <;> rfl

namespace Level

/-- Whether a level takes a stamp: the value of its field is selected in its
period and passes the tests. -/
def Takes (level : Level) (s : Stamp) : Prop :=
  s.get level.field ∈ level.selection.values s ∧ ∀ φ ∈ level.filters, φ.accepts s = true

/-- Whether levels stand for all the fields from a given one on, in order, each
with tests of its own field. -/
def Spans : Option Field → List Level → Prop
  | none, [] => True
  | some f, level :: finer =>
    (level.field = f ∧ ∀ φ ∈ level.filters, φ.field = f) ∧ Spans f.next finer
  | _, _ => False

/-- A level takes both of two stamps or neither if they agree down to its field. -/
theorem takes_congr {level : Level} {a b : Stamp}
    (hf : ∀ φ ∈ level.filters, φ.field = level.field)
    (h : a.fixed level.field.next = b.fixed level.field.next) : level.Takes a ↔ level.Takes b := by
  obtain ⟨habove, hget⟩ := (Stamp.fixed_next_iff _ _ _).1 h
  have hvalues : level.selection.values a = level.selection.values b := by
    rw [← level.selection.values_above a, ← level.selection.values_above b]
    exact congrArg _ habove
  rw [Takes, Takes, hvalues, hget]
  refine and_congr_right fun _ => forall₂_congr fun φ hφ => ?_
  rw [← φ.accepts_truncate a, ← φ.accepts_truncate b, hf φ hφ, Stamp.truncate_eq_of_fixed h]

/-- A level looks at the period of a stamp and at the value of its own field. -/
theorem takes_set {level : Level} {s b : Stamp} (hf : ∀ φ ∈ level.filters, φ.field = level.field)
    (h : b.fixed level.field.next = (s.set level.field (b.get level.field)).fixed level.field.next) :
    level.Takes b ↔ b.get level.field ∈ level.selection.values s ∧
      ∀ φ ∈ level.filters, φ.accepts (s.set level.field (b.get level.field)) = true := by
  have hvalues : level.selection.values (s.set level.field (b.get level.field)) =
      level.selection.values s := by
    rw [← level.selection.values_above s, ← level.selection.values_above (s.set _ _)]
    exact congrArg _ (Stamp.above_set _ _ _)
  rw [takes_congr hf h, Takes, Stamp.get_set, hvalues]

theorem mem_spread {threshold : Stamp} {level : Level} {below : Stamp → List Stamp} {s b : Stamp}
    {values : List Nat} : b ∈ level.spread threshold below s values ↔
      ∃ value ∈ values, level.admits threshold (s.set level.field value) = true ∧
        b ∈ below (s.set level.field value) := by
  simp only [spread, List.mem_flatMap]
  refine exists_congr fun value => and_congr_right fun _ => ?_
  split <;> simp_all

theorem admits_iff {threshold : Stamp} {level : Level} {s : Stamp} :
    level.admits threshold s = true ↔
      threshold.truncate level.field ≤ s.truncate level.field ∧
        ∀ φ ∈ level.filters, φ.accepts s = true := by
  rw [admits, Bool.and_eq_true, List.all_eq_true, Bool.not_eq_true', decide_eq_false_iff_not,
    not_lt]

/-! ### Which stamps are listed -/

/-- **A stamp is listed if every level takes it**, and it is not before the
threshold at any of their fields. -/
theorem mem_listed (threshold : Stamp) {first : Option Field} {levels : List Level}
    (h : Spans first levels) (s b : Stamp) :
    b ∈ listed threshold levels s ↔ b.fixed first = s.fixed first ∧
      ∀ level ∈ levels, level.Takes b ∧
        threshold.truncate level.field ≤ b.truncate level.field := by
  induction levels generalizing first s with
  | nil =>
    cases first with
    | none => simp [listed, Stamp.fixed]
    | some f => exact h.elim
  | cons level finer ih =>
    cases first with
    | none => exact h.elim
    | some f =>
      obtain ⟨⟨rfl, hfilters⟩, hfiner⟩ := h
      simp only [listed, mem_spread, ih hfiner, List.forall_mem_cons, admits_iff]
      constructor
      · rintro ⟨value, hvalue, ⟨hthr, haccepts⟩, hfixed, hrest⟩
        obtain ⟨habove, hget⟩ := (Stamp.fixed_next_iff _ _ _).1 hfixed
        rw [Stamp.above_set] at habove
        rw [Stamp.get_set] at hget
        subst hget
        rw [Stamp.truncate_eq_of_fixed hfixed]
        exact ⟨habove, ⟨(takes_set hfilters hfixed).2 ⟨hvalue, haccepts⟩, hthr⟩, hrest⟩
      · rintro ⟨habove, ⟨htakes, hthr⟩, hrest⟩
        have hfixed : b.fixed level.field.next =
            (s.set level.field (b.get level.field)).fixed level.field.next := by
          rw [Stamp.fixed_next_iff, Stamp.above_set, Stamp.get_set]
          exact ⟨habove, rfl⟩
        obtain ⟨hvalue, haccepts⟩ := (takes_set hfilters hfixed).1 htakes
        rw [Stamp.truncate_eq_of_fixed hfixed] at hthr
        exact ⟨_, hvalue, ⟨hthr, haccepts⟩, hfixed, hrest⟩

theorem fixed_of_mem_listed {threshold : Stamp} {first : Option Field} {levels : List Level}
    (h : Spans first levels) {s b : Stamp} (hb : b ∈ listed threshold levels s) :
    b.fixed first = s.fixed first :=
  ((mem_listed threshold h s b).1 hb).1

theorem fixed_of_mem_unvisited {threshold : Stamp} {first : Option Field} {levels : List Level}
    (h : Spans first levels) {ps : List Position} {s b : Stamp}
    (hb : b ∈ unvisited threshold levels ps s) : b.fixed first = s.fixed first := by
  induction levels generalizing first ps s with
  | nil => exact absurd hb List.not_mem_nil
  | cons level finer ih =>
    cases first with
    | none => exact h.elim
    | some f =>
      obtain ⟨⟨rfl, hfilters⟩, hfiner⟩ := h
      -- a stamp below a value of the level has the fields above it
      have hbelow : ∀ {value}, b.fixed level.field.next =
          (s.set level.field value).fixed level.field.next →
          b.fixed (some level.field) = s.fixed (some level.field) := fun hfixed =>
        ((Stamp.fixed_next_iff _ _ _).1 hfixed).1.trans (Stamp.above_set s level.field _)
      cases ps with
      | nil => exact absurd hb List.not_mem_nil
      | cons p ps =>
        rcases List.mem_append.1 hb with hb | hb
        · exact hbelow (ih hfiner hb)
        · obtain ⟨value, -, -, hb⟩ := mem_spread.1 hb
          exact hbelow (fixed_of_mem_listed hfiner hb)

/-! ### The order of the list -/

/-- What lies below greater values comes later. -/
theorem pairwise_spread {threshold : Stamp} {level : Level} {finer : List Level}
    (h : Spans (some level.field) (level :: finer)) (s : Stamp) {values : List Nat}
    (hvalues : values.Pairwise (· < ·))
    (ih : ∀ s, (listed threshold finer s).Pairwise (· < ·)) :
    (level.spread threshold (listed threshold finer) s values).Pairwise (· < ·) := by
  rw [spread, List.pairwise_flatMap]
  constructor
  · intro value _
    simp only
    split
    · exact ih _
    · exact List.Pairwise.nil
  · refine hvalues.imp fun {v w} hlt a ha b hb => ?_
    simp only at ha hb
    split at ha
    · split at hb
      · obtain ⟨haa, hag⟩ := (Stamp.fixed_next_iff _ _ _).1 (fixed_of_mem_listed h.2 ha)
        obtain ⟨hba, hbg⟩ := (Stamp.fixed_next_iff _ _ _).1 (fixed_of_mem_listed h.2 hb)
        rw [Stamp.above_set] at haa hba
        rw [Stamp.get_set] at hag hbg
        exact Stamp.lt_of_get_lt (haa.trans hba.symm) (by rwa [hag, hbg])
      · exact absurd hb List.not_mem_nil
    · exact absurd ha List.not_mem_nil

/-- **The candidates are listed in ascending order.** -/
theorem pairwise_listed (threshold : Stamp) {first : Option Field} {levels : List Level}
    (h : Spans first levels) (s : Stamp) : (listed threshold levels s).Pairwise (· < ·) := by
  induction levels generalizing first s with
  | nil => exact List.pairwise_singleton _ _
  | cons level finer ih =>
    cases first with
    | none => exact h.elim
    | some f =>
      obtain ⟨⟨rfl, hfilters⟩, hfiner⟩ := h
      exact pairwise_spread ⟨⟨rfl, hfilters⟩, hfiner⟩ s (level.selection.pairwise_values s)
        fun s => ih hfiner s

/-! ### Raising the threshold -/

theorem listed_nil (threshold : Stamp) {levels : List Level} (h : Spans none levels) (s : Stamp) :
    listed threshold levels s = [s] := by
  cases levels with
  | nil => rfl
  | cons => exact h.elim

theorem spread_raise {threshold raised : Stamp} (hle : threshold ≤ raised) {level : Level}
    {finer : List Level} (h : Spans (some level.field) (level :: finer)) (s : Stamp)
    (values : List Nat)
    (ih : ∀ s, level.field ≠ .second → listed raised finer s =
      (listed threshold finer s).filter (raised ≤ ·)) :
    level.spread raised (listed raised finer) s values =
      (level.spread threshold (listed threshold finer) s values).filter (raised ≤ ·) := by
  rw [spread, spread, List.filter_flatMap]
  refine List.flatMap_congr fun value _ => ?_
  generalize ht : s.set level.field value = t
  by_cases hraised : level.admits raised t = true
  · obtain ⟨hle', haccepts⟩ := admits_iff.1 hraised
    have hthreshold : level.admits threshold t = true :=
      admits_iff.2 ⟨(Stamp.truncate_mono hle _).trans hle', haccepts⟩
    simp only [hraised, hthreshold, if_true]
    by_cases hsecond : level.field = .second
    · -- nothing is left to choose below the seconds
      have hfiner := h.2
      rw [hsecond] at hfiner hle'
      rw [listed_nil raised hfiner, listed_nil threshold hfiner]
      rw [Stamp.truncate_second, Stamp.truncate_second] at hle'
      rw [List.filter_cons_of_pos (by simpa using hle'), List.filter_nil]
    · exact ih t hsecond
  · simp only [hraised, Bool.false_eq_true, if_false]
    split
    · rename_i hthreshold
      refine (List.filter_eq_nil_iff.2 fun b hb => ?_).symm
      have hfixed := fixed_of_mem_listed h.2 hb
      simp only [decide_eq_true_eq]
      intro hle'
      refine hraised (admits_iff.2 ⟨?_, (admits_iff.1 hthreshold).2⟩)
      rw [← Stamp.truncate_eq_of_fixed hfixed]
      exact Stamp.truncate_mono hle' _
    · rfl

/-- **Raising the threshold leaves the candidates from it on.** -/
theorem listed_raise {threshold raised : Stamp} (hle : threshold ≤ raised) {f : Field}
    {levels : List Level} (h : Spans (some f) levels) (s : Stamp) :
    listed raised levels s = (listed threshold levels s).filter (raised ≤ ·) := by
  induction levels generalizing f s with
  | nil => exact h.elim
  | cons level finer ih =>
    obtain ⟨⟨rfl, hfilters⟩, hfiner⟩ := h
    refine spread_raise hle ⟨⟨rfl, hfilters⟩, hfiner⟩ s _ fun t hsecond => ?_
    obtain ⟨g, hg⟩ : ∃ g, level.field.next = some g := by
      cases hf : level.field <;> simp_all [Field.next]
    rw [hg] at hfiner
    exact ih hfiner t

/-- **A walk that stands in the list passes over the candidates before a raised
threshold** and over nothing else. -/
theorem unvisited_raise {threshold raised : Stamp} (hle : threshold ≤ raised)
    {first : Option Field} {levels : List Level} (h : Spans first levels) (ps : List Position)
    (s : Stamp) :
    unvisited raised levels ps s = (unvisited threshold levels ps s).filter (raised ≤ ·) := by
  induction levels generalizing first ps s with
  | nil => rfl
  | cons level finer ih =>
    cases first with
    | none => exact h.elim
    | some f =>
      obtain ⟨⟨rfl, hfilters⟩, hfiner⟩ := h
      cases ps with
      | nil => rfl
      | cons p ps =>
        simp only [unvisited, List.filter_append, ih hfiner]
        congr 1
        refine spread_raise hle ⟨⟨rfl, hfilters⟩, hfiner⟩ s _ fun t hsecond => ?_
        obtain ⟨g, hg⟩ : ∃ g, level.field.next = some g := by
          cases hf : level.field <;> simp_all [Field.next]
        rw [hg] at hfiner
        exact listed_raise hle hfiner t

end Level

end Recurrence
