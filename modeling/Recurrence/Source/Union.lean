/-
# Unions with exclusions

A union merges the moments of several cursors, its inclusions, and leaves out
those of its exclusions. The inclusions hold their next moments, the least of
which comes next; a moment that several of them hold comes once. An exclusion
is only moved up to a moment when that moment has to be tested.

Key definitions: `Union`, `Union.of`, `Union.produce`, `Nested`.
-/
import Recurrence.Source.Basic

namespace Recurrence

/-- Cursors whose moments come, and cursors whose moments do not come. -/
structure Union (σ : Type) where
  inclusions : List (Cursor σ)
  exclusions : List (Cursor σ)
  /-- The moment before, whether it came or was excluded. -/
  last : Option Moment

namespace Union

variable {σ : Type} [Source σ]

/-- The union of inclusions without the exclusions. -/
def of (inclusions exclusions : List (Cursor σ)) : Union σ :=
  ⟨inclusions.map Cursor.fill, exclusions, none⟩

/-- The least moment that a cursor holds. -/
def least : List (Cursor σ) → Option Moment
  | [] => none
  | c :: cs =>
    match c.held, least cs with
    | some a, some b => some (if b < a then b else a)
    | some a, none => some a
    | none, rest => rest

/-- The cursors, of which the first one that holds the moment holds its next
one instead. -/
def advanceFirst (m : Moment) : List (Cursor σ) → List (Cursor σ)
  | [] => []
  | c :: cs => if c.held = some m then c.drop.fill :: cs else c :: advanceFirst m cs

/-- Whether one of the cursors has the moment, and the cursors after they were
asked, one after the other up to the first that has it. -/
def hasMoment (m : Moment) : List (Cursor σ) → Bool × List (Cursor σ)
  | [] => (false, [])
  | c :: cs =>
    let (next, c) := (c.advanceTo m).peek
    if next = some m then (true, c :: cs)
    else
      let (found, cs) := hasMoment m cs
      (found, c :: cs)

/-- A bound on the number of moments that cursors have to come. -/
def total (cs : List (Cursor σ)) : Nat :=
  cs.foldr (fun c rest => c.size + rest) 0

theorem size_drop_fill_lt {c : Cursor σ} {m : Moment} (h : c.held = some m) :
    c.drop.fill.size < c.size := by
  cases c with
  | idle s => simp [Cursor.held] at h
  | holding m' s =>
    have := Cursor.size_fill_le (Cursor.idle s)
    simp only [Cursor.drop, Cursor.size] at this ⊢
    omega
  | ended => simp [Cursor.held] at h

omit [Source σ] in
theorem exists_of_least {cs : List (Cursor σ)} {m : Moment} (h : least cs = some m) :
    ∃ c ∈ cs, c.held = some m := by
  induction cs generalizing m with
  | nil => simp [least] at h
  | cons c cs ih =>
    simp only [least] at h
    split at h
    · rename_i a b ha hb
      simp only [Option.some.injEq] at h
      split at h
      · obtain ⟨c', hc', heq⟩ := ih hb
        exact ⟨c', List.mem_cons_of_mem _ hc', by rw [heq, h]⟩
      · exact ⟨c, List.mem_cons_self, by rw [ha, h]⟩
    · rename_i a ha hb
      exact ⟨c, List.mem_cons_self, by rw [ha, h]⟩
    · obtain ⟨c', hc', heq⟩ := ih h
      exact ⟨c', List.mem_cons_of_mem _ hc', heq⟩

theorem total_advanceFirst_lt {cs : List (Cursor σ)} {m : Moment}
    (h : ∃ c ∈ cs, c.held = some m) : total (advanceFirst m cs) < total cs := by
  induction cs with
  | nil => simp at h
  | cons c cs ih =>
    simp only [advanceFirst]
    split
    · rename_i hc
      have := size_drop_fill_lt hc
      simp only [total, List.foldr_cons]
      omega
    · rename_i hc
      have hcs : ∃ c ∈ cs, c.held = some m := by
        obtain ⟨c', hc', heq⟩ := h
        rcases List.mem_cons.1 hc' with rfl | hmem
        · exact absurd heq hc
        · exact ⟨c', hmem, heq⟩
      have := ih hcs
      simp only [total, List.foldr_cons] at this ⊢
      omega

/-- The next moment of a union, and the state behind it. -/
def produceFrom (inclusions exclusions : List (Cursor σ)) (last : Option Moment) :
    Option (Moment × Union σ) :=
  match _least : least inclusions with
  | none => none
  | some m =>
    let inclusions' := advanceFirst m inclusions
    if last.any fun before => m ≤ before then produceFrom inclusions' exclusions last
    else
      match hasMoment m exclusions with
      | (true, exclusions) => produceFrom inclusions' exclusions (some m)
      | (false, exclusions) => some (m, ⟨inclusions', exclusions, some m⟩)
termination_by total inclusions
decreasing_by
  all_goals exact total_advanceFirst_lt (exists_of_least _least)

/-- The next moment of a union, and the state behind it. -/
def produce (u : Union σ) : Option (Moment × Union σ) :=
  produceFrom u.inclusions u.exclusions u.last

/-- The union whose cursors have passed over the moments before a date. -/
def seek (date : Moment) (u : Union σ) : Cursor (Union σ) :=
  .idle
    { u with
      inclusions := u.inclusions.map fun c => (c.advanceTo date).fill
      exclusions := u.exclusions.map (Cursor.advanceTo date) }

/-- A bound on the number of moments to come. -/
def size (u : Union σ) : Nat :=
  total u.inclusions

theorem size_produceFrom {inclusions exclusions : List (Cursor σ)} {last : Option Moment}
    {m : Moment} {u : Union σ} (h : produceFrom inclusions exclusions last = some (m, u)) :
    u.size < total inclusions := by
  fun_induction produceFrom inclusions exclusions last with
  | case1 => simp at h
  | case2 inclusions exclusions last m' hleast inclusions' hlast ih =>
    exact Nat.lt_trans (ih h) (total_advanceFirst_lt (exists_of_least hleast))
  | case3 inclusions exclusions last m' hleast inclusions' hlast exclusions' hhas ih =>
    exact Nat.lt_trans (ih h) (total_advanceFirst_lt (exists_of_least hleast))
  | case4 inclusions exclusions last m' hleast inclusions' hlast exclusions' hhas =>
    simp only [Option.some.injEq, Prod.mk.injEq] at h
    rw [← h.2]
    exact total_advanceFirst_lt (exists_of_least hleast)

instance : Source (Union σ) where
  produce := produce
  seek := seek
  size := size
  size_produce := fun h => size_produceFrom h

end Union

/-! ### Unions of unions -/

/-- Sources built from others by unions, at most `depth` of them within each
other. -/
def Nested (σ : Type) : Nat → Type
  | 0 => σ
  | depth + 1 => Nested σ depth ⊕ Union (Nested σ depth)

namespace Nested

/-- A cursor of one of two kinds. -/
def sumCursor {α β γ : Type} (f : α → γ) (g : β → γ) : Cursor α ⊕ Cursor β → Cursor γ
  | .inl (.idle s) => .idle (f s)
  | .inl (.holding m s) => .holding m (f s)
  | .inr (.idle s) => .idle (g s)
  | .inr (.holding m s) => .holding m (g s)
  | .inl .ended | .inr .ended => .ended

end Nested

/-- A source of one of two kinds is a source. -/
instance {α β : Type} [Source α] [Source β] : Source (α ⊕ β) where
  produce
    | .inl s => (Source.produce s).map fun (m, s) => (m, .inl s)
    | .inr s => (Source.produce s).map fun (m, s) => (m, .inr s)
  seek date
    | .inl s => Nested.sumCursor .inl .inr (.inl (Source.seek date s) : Cursor α ⊕ Cursor β)
    | .inr s => Nested.sumCursor .inl .inr (.inr (Source.seek date s) : Cursor α ⊕ Cursor β)
  size
    | .inl s => Source.size s
    | .inr s => Source.size s
  size_produce := by
    intro s s' m h
    split at h
    · obtain ⟨⟨m', t⟩, ht, heq⟩ := Option.map_eq_some_iff.1 h
      simp only [Prod.mk.injEq] at heq
      obtain ⟨_, rfl⟩ := heq
      exact Source.size_produce ht
    · obtain ⟨⟨m', t⟩, ht, heq⟩ := Option.map_eq_some_iff.1 h
      simp only [Prod.mk.injEq] at heq
      obtain ⟨_, rfl⟩ := heq
      exact Source.size_produce ht

instance Nested.source {σ : Type} [Source σ] : (depth : Nat) → Source (Nested σ depth)
  | 0 => inferInstanceAs (Source σ)
  | depth + 1 =>
    have : Source (Nested σ depth) := Nested.source depth
    inferInstanceAs (Source (Nested σ depth ⊕ Union (Nested σ depth)))

end Recurrence
