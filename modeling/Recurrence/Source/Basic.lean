/-
# Sources of moments

A source produces moments in ascending order, each only when it is asked for,
and can be told to seek a moment. A cursor is a source that may have looked at
its next moment already; it answers what comes next, with or without taking it,
and passes over the moments before a given one.

A source has a size, which every moment it produces makes smaller, so what
draws from it comes to an end.

Key definitions: `Source`, `Cursor`, `Cursor.peek`, `Cursor.next`, `Cursor.advanceTo`.
Key theorems: `Cursor.take_succ`, `Cursor.size_fill_le`.
-/
import Recurrence.Moment.Basic

namespace Recurrence

/-- A source of moments that may have been asked for its next one. -/
inductive Cursor (σ : Type)
  /-- The next moment was not asked for yet. -/
  | idle (source : σ)
  /-- The next moment is known; the source stands behind it. -/
  | holding (next : Moment) (source : σ)
  /-- There are no more moments. -/
  | ended

/-- A state that moments are produced from. -/
class Source (σ : Type) where
  /-- The next moment, and the state behind it. -/
  produce : σ → Option (Moment × σ)
  /-- The cursor in front of the first moment that is not before the given
  one, in so far as the source knows it without being asked. -/
  seek : Moment → σ → Cursor σ
  /-- A bound on the number of moments to come. -/
  size : σ → Nat
  /-- Producing a moment makes the source smaller. -/
  size_produce : ∀ {s s' : σ} {m : Moment}, produce s = some (m, s') → size s' < size s

namespace Cursor

variable {σ : Type} [Source σ]

/-- A bound on the number of moments to come. -/
def size : Cursor σ → Nat
  | idle s => Source.size s
  | holding _ s => Source.size s + 1
  | ended => 0

/-- The moment that is held, if there is one. -/
def held : Cursor σ → Option Moment
  | holding m _ => some m
  | _ => none

/-- The cursor that holds the next moment. -/
def fill : Cursor σ → Cursor σ
  | idle s =>
    match Source.produce s with
    | some (m, s) => holding m s
    | none => ended
  | c => c

/-- The next moment, without taking it. -/
def peek (c : Cursor σ) : Option Moment × Cursor σ :=
  (c.fill.held, c.fill)

/-- The cursor behind the moment that is held. -/
def drop : Cursor σ → Cursor σ
  | holding _ s => idle s
  | c => c

/-- The next moment, and the cursor behind it. -/
def next (c : Cursor σ) : Option Moment × Cursor σ :=
  (c.fill.held, c.fill.drop)

/-- Whether there is a next moment. -/
def hasNext (c : Cursor σ) : Bool × Cursor σ :=
  (c.fill.held.isSome, c.fill)

/-- The cursor that has passed over all moments before a date. One that holds a
moment from there on stays where it is. -/
def advanceTo (date : Moment) (c : Cursor σ) : Cursor σ :=
  match c with
  | idle s => Source.seek date s
  | holding m s => if m < date then Source.seek date s else c
  | ended => ended

/-- The moments of `taken`, whose last one stands first, with up to `n` of the
next moments behind them, and the cursor behind those. -/
def takeOnto (taken : List Moment) : Nat → Cursor σ → List Moment × Cursor σ
  | 0, c => (taken.reverse, c)
  | n + 1, c =>
    match c.next with
    | (some m, c) => takeOnto (m :: taken) n c
    | (none, c) => (taken.reverse, c)

/-- Up to `n` of the next moments, and the cursor behind them. -/
def take (n : Nat) (c : Cursor σ) : List Moment × Cursor σ :=
  takeOnto [] n c

theorem takeOnto_eq (taken : List Moment) (n : Nat) (c : Cursor σ) :
    c.takeOnto taken n = (taken.reverse ++ (c.take n).1, (c.take n).2) := by
  induction n generalizing taken c with
  | zero => simp [take, takeOnto]
  | succ n ih =>
    simp only [take, takeOnto]
    split
    · rename_i m c' _
      rw [ih (m :: taken), ih [m]]
      simp
    · simp

/-- The first moment is taken before the others. -/
theorem take_succ (n : Nat) (c : Cursor σ) :
    c.take (n + 1) =
      match c.next with
      | (some m, c) => (m :: (c.take n).1, (c.take n).2)
      | (none, c) => ([], c) := by
  simp only [take, takeOnto]
  split
  · rename_i m c' _
    simpa [take] using takeOnto_eq [m] n c'
  · rfl

theorem size_fill_le (c : Cursor σ) : c.fill.size ≤ c.size := by
  cases c with
  | idle s =>
    simp only [fill]
    split
    · rename_i m s' h
      have := Source.size_produce h
      simp only [size]
      omega
    · simp [size]
  | holding m s => simp [fill]
  | ended => simp [fill]

end Cursor

end Recurrence
