/-
# Cursors over lists

A cursor can be asked for its next moment, with or without taking it, and can
be told to pass over the moments before a date. A list answers the same
questions by its head, so a cursor follows a list when no sequence of questions
tells them apart. Following is shown by a relation that every question keeps
(`Cursor.follows_of_keeps`), for a source by one that producing and seeking keep
(`Cursor.follows_of_source`).

Key definitions: `Query`, `Answer`, `Cursor.replies`, `Query.repliesOf`, `Cursor.Follows`.
Key theorems: `Cursor.follows_of_keeps`, `Cursor.follows_of_source`,
`Cursor.Follows.advanceTo`.
-/
import Recurrence.Proofs.Order
import Recurrence.Source.Basic

namespace Recurrence

/-- A question to a cursor. -/
inductive Query
  | next
  | peek
  | hasNext
  /-- To pass over the moments before a date. -/
  | advanceTo (date : Moment)

/-- What a cursor answers. -/
inductive Answer
  | moment (m : Option Moment)
  | verdict (more : Bool)
  | done
  deriving DecidableEq

namespace Query

/-- Whether every date of a sequence of questions has a property. -/
def DatesIn (P : Moment → Prop) (qs : List Query) : Prop :=
  ∀ d, advanceTo d ∈ qs → P d

theorem datesIn_cons {P : Moment → Prop} {q : Query} {qs : List Query} :
    DatesIn P (q :: qs) ↔ DatesIn P [q] ∧ DatesIn P qs := by
  simp only [DatesIn, List.mem_cons, List.not_mem_nil, or_false]
  exact ⟨fun h => ⟨fun d hd => h d (Or.inl hd), fun d hd => h d (Or.inr hd)⟩,
    fun h d hd => hd.elim (h.1 d) (h.2 d)⟩

theorem datesIn_advanceTo_next {P : Moment → Prop} {d : Moment} (hd : P d) :
    DatesIn P [advanceTo d, next] := by
  intro d' hd'
  simp only [List.mem_cons, advanceTo.injEq, reduceCtorEq, List.not_mem_nil, or_false] at hd'
  rwa [hd']

/-- The answer of a list of moments, and the list that is left. -/
def ofList : Query → List Moment → Answer × List Moment
  | next, l => (.moment l.head?, l.tail)
  | peek, l => (.moment l.head?, l)
  | hasNext, l => (.verdict l.head?.isSome, l)
  | advanceTo date, l => (.done, l.dropWhile (· < date))

/-- The answers of a list of moments to a sequence of questions. -/
def repliesOf : List Query → List Moment → List Answer
  | [], _ => []
  | q :: qs, l => (q.ofList l).1 :: repliesOf qs (q.ofList l).2

end Query

namespace Cursor

variable {σ : Type} [Source σ]

/-- The answer of a cursor, and the cursor after it. -/
def ask : Query → Cursor σ → Answer × Cursor σ
  | .next, c => (.moment c.next.1, c.next.2)
  | .peek, c => (.moment c.peek.1, c.peek.2)
  | .hasNext, c => (.verdict c.hasNext.1, c.hasNext.2)
  | .advanceTo date, c => (.done, c.advanceTo date)

/-- The answers of a cursor to a sequence of questions. -/
def replies : List Query → Cursor σ → List Answer
  | [], _ => []
  | q :: qs, c => (c.ask q).1 :: replies qs (c.ask q).2

/-- Whether a cursor answers every sequence of questions as a list does, as
long as it is only told to pass to dates with a property. -/
def Follows (P : Moment → Prop) (c : Cursor σ) (l : List Moment) : Prop :=
  ∀ qs, Query.DatesIn P qs → c.replies qs = Query.repliesOf qs l

/-! ### From one question to all -/

/-- What a relation of cursors and lists must keep for the cursors to follow
the lists. -/
structure Keeps (P : Moment → Prop) (R : Cursor σ → List Moment → Prop) : Prop where
  held : ∀ {c l}, R c l → c.fill.held = l.head?
  fill : ∀ {c l}, R c l → R c.fill l
  drop : ∀ {c l}, R c l → R c.fill.drop l.tail
  advanceTo : ∀ {c l d}, R c l → P d → R (c.advanceTo d) (l.dropWhile (· < d))

theorem Keeps.ask {P : Moment → Prop} {R : Cursor σ → List Moment → Prop} (hR : Keeps P R)
    {c : Cursor σ} {l : List Moment} (h : R c l) (q : Query) (hq : Query.DatesIn P [q]) :
    (c.ask q).1 = (q.ofList l).1 ∧ R (c.ask q).2 (q.ofList l).2 := by
  cases q with
  | next => exact ⟨congrArg Answer.moment (hR.held h), hR.drop h⟩
  | peek => exact ⟨congrArg Answer.moment (hR.held h), hR.fill h⟩
  | hasNext =>
    exact ⟨congrArg (fun m : Option Moment => Answer.verdict m.isSome) (hR.held h), hR.fill h⟩
  | advanceTo d => exact ⟨rfl, hR.advanceTo h (hq d List.mem_cons_self)⟩

theorem follows_of_keeps {P : Moment → Prop} {R : Cursor σ → List Moment → Prop}
    (hR : Keeps P R) {c : Cursor σ} {l : List Moment} (h : R c l) : c.Follows P l := by
  intro qs
  induction qs generalizing c l with
  | nil => intro _; rfl
  | cons q qs ih =>
    intro hq
    obtain ⟨hq, hqs⟩ := Query.datesIn_cons.1 hq
    obtain ⟨ha, hrest⟩ := hR.ask h q hq
    simp only [replies, Query.repliesOf, ha, ih hrest hqs]

/-! ### What following says of one question -/

theorem Follows.ask {P : Moment → Prop} {c : Cursor σ} {l : List Moment} (h : c.Follows P l)
    (q : Query) (hq : Query.DatesIn P [q]) :
    (c.ask q).1 = (q.ofList l).1 ∧ (c.ask q).2.Follows P (q.ofList l).2 := by
  have hone := h [q] hq
  simp only [replies, Query.repliesOf, List.cons.injEq, and_true] at hone
  refine ⟨hone, fun qs hqs => ?_⟩
  have hall := h (q :: qs) (Query.datesIn_cons.2 ⟨hq, hqs⟩)
  simp only [replies, Query.repliesOf, List.cons.injEq] at hall
  exact hall.2

theorem datesIn_of_isEmpty {P : Moment → Prop} {q : Query} (h : ∀ d, q ≠ .advanceTo d) :
    Query.DatesIn P [q] := by
  intro d hd
  exact absurd (List.mem_singleton.1 hd).symm (h d)

variable {P : Moment → Prop} {c : Cursor σ} {l : List Moment}

theorem Follows.held (h : c.Follows P l) : c.fill.held = l.head? := by
  have := (h.ask .peek (datesIn_of_isEmpty (by simp))).1
  simpa [Cursor.ask, Cursor.peek, Query.ofList] using this

theorem Follows.fill (h : c.Follows P l) : c.fill.Follows P l :=
  (h.ask .peek (datesIn_of_isEmpty (by simp))).2

theorem Follows.drop (h : c.Follows P l) : c.fill.drop.Follows P l.tail :=
  (h.ask .next (datesIn_of_isEmpty (by simp))).2

theorem Follows.advanceTo (h : c.Follows P l) {d : Moment} (hd : P d) :
    (c.advanceTo d).Follows P (l.dropWhile (· < d)) := by
  refine (h.ask (.advanceTo d) fun d' hd' => ?_).2
  rw [List.mem_singleton, Query.advanceTo.injEq] at hd'
  rwa [hd']

/-- The first moments of the list are taken first. -/
theorem Follows.take (h : c.Follows P l) (n : Nat) : (c.take n).1 = l.take n := by
  induction n generalizing c l with
  | zero => simp [Cursor.take, Cursor.takeOnto]
  | succ n ih =>
    rw [take_succ, Cursor.next, h.held]
    cases l with
    | nil => rfl
    | cons m l => exact congrArg (m :: ·) (ih h.drop)

/-! ### Sources -/

/-- The cursors of a relation of sources and lists. -/
def OfSource (R : σ → List Moment → Prop) : Cursor σ → List Moment → Prop
  | idle s, l => R s l
  | holding m s, l => ∃ l', l = m :: l' ∧ R s l'
  | ended, l => l = []

/-- What a relation of sources and lists must keep for the sources to yield the
lists one moment after the other. -/
structure Yields (R : σ → List Moment → Prop) : Prop where
  nil : ∀ {s}, R s [] → Source.produce s = none
  cons : ∀ {s m l}, R s (m :: l) → ∃ s', Source.produce s = some (m, s') ∧ R s' l

/-- What it must keep for them to pass to a date in the lists as well. -/
structure Produces (P : Moment → Prop) (R : σ → List Moment → Prop) : Prop extends Yields R where
  seek : ∀ {s l d}, R s l → P d → OfSource R (Source.seek d s) (l.dropWhile (· < d))

theorem Yields.fill {R : σ → List Moment → Prop} (hR : Yields R) (h : OfSource R c l) :
    c.fill.held = l.head? ∧ OfSource R c.fill l ∧ OfSource R c.fill.drop l.tail := by
  cases c with
  | idle s =>
    cases l with
    | nil => simp [Cursor.fill, hR.nil h, Cursor.held, OfSource, Cursor.drop]
    | cons m l =>
      obtain ⟨s', hs, hs'⟩ := hR.cons h
      simpa [Cursor.fill, hs, Cursor.held, OfSource, Cursor.drop] using hs'
  | holding m s =>
    obtain ⟨l', rfl, hs⟩ := h
    simpa [Cursor.fill, Cursor.held, OfSource, Cursor.drop] using hs
  | ended =>
    have hl : l = [] := h
    simp [hl, Cursor.fill, Cursor.held, OfSource, Cursor.drop]

/-- Sources keep what every moment that is to come has. -/
theorem Yields.and_mem {R : σ → List Moment → Prop} (hR : Yields R) (Q : Moment → Prop) :
    Yields fun s l => R s l ∧ ∀ m ∈ l, Q m where
  nil h := hR.nil h.1
  cons h := by
    obtain ⟨s', hs', hrest⟩ := hR.cons h.1
    exact ⟨s', hs', hrest, fun m hm => h.2 m (List.mem_cons_of_mem _ hm)⟩

omit [Source σ] in
theorem OfSource.and_mem {R : σ → List Moment → Prop} {Q : Moment → Prop} (h : OfSource R c l)
    (hQ : ∀ m ∈ l, Q m) : OfSource (fun s l => R s l ∧ ∀ m ∈ l, Q m) c l := by
  cases c with
  | idle s => exact ⟨h, hQ⟩
  | holding m s =>
    obtain ⟨l', rfl, hs⟩ := h
    exact ⟨l', rfl, hs, fun m' hm' => hQ m' (List.mem_cons_of_mem _ hm')⟩
  | ended => exact h

theorem Produces.keeps {R : σ → List Moment → Prop} (hR : Produces P R) :
    Keeps P (OfSource R) where
  held h := (hR.fill h).1
  fill h := (hR.fill h).2.1
  drop h := (hR.fill h).2.2
  advanceTo {c l d} h hd := by
    cases c with
    | idle s => exact hR.seek h hd
    | holding m s =>
      obtain ⟨l', rfl, hs⟩ := h
      simp only [Cursor.advanceTo]
      split
      · rename_i hlt
        rw [List.dropWhile_cons_of_pos (by simpa using hlt)]
        exact hR.seek hs hd
      · rename_i hge
        rw [List.dropWhile_cons_of_neg (by simpa using hge)]
        exact ⟨l', rfl, hs⟩
    | ended =>
      have hl : l = [] := h
      simp [hl, Cursor.advanceTo, OfSource]

/-- **A source that produces a list and seeks in it is followed by its
cursor.** -/
theorem follows_of_source {R : σ → List Moment → Prop} (hR : Produces P R) {s : σ}
    (h : R s l) : (idle s).Follows P l :=
  follows_of_keeps hR.keeps (show OfSource R (idle s) l from h)

end Cursor

end Recurrence
