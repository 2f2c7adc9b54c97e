/-
# Dates and date-times

A moment is a date, optionally with a time of day. Moments are totally ordered:
by date, then by time, a date without a time coming before every time of that
day. The time `24:00:00` stands for the midnight that ends a day, and a second
of 60 for a leap second; neither is carried into the next day or minute until
the moment is counted in seconds (`Moment.seconds?`).

Key definitions: `TimeOfDay`, `TimeOfDay.of`, `Moment`, `Moment.IsValid`,
`Moment.seconds?`, `Moment.ofSeconds`, `Moment.add?`.
-/
import Recurrence.Calendar.Date

namespace Recurrence

open Calendar

/-- An hour, a minute and a second. -/
structure TimeOfDay where
  hour : Nat
  minute : Nat
  second : Nat
  deriving DecidableEq

namespace TimeOfDay

/-- A time of day; from the 24th hour on it is the midnight that ends the day. -/
def of (hour minute second : Nat) : TimeOfDay :=
  if hour ≥ 24 then ⟨24, 0, 0⟩ else ⟨hour, minute, second⟩

/-- The midnight that begins a day. -/
def midnight : TimeOfDay := ⟨0, 0, 0⟩

/-- Times are ordered by hour, minute and second. -/
protected def lt (a b : TimeOfDay) : Prop :=
  a.hour < b.hour ∨
    a.hour = b.hour ∧ (a.minute < b.minute ∨ a.minute = b.minute ∧ a.second < b.second)

instance : LT TimeOfDay := ⟨TimeOfDay.lt⟩

instance (a b : TimeOfDay) : Decidable (a < b) :=
  inferInstanceAs (Decidable (_ ∨ _))

/-- Seconds after the midnight that begins the day. -/
def seconds (t : TimeOfDay) : Int :=
  (t.hour * 60 + t.minute) * 60 + t.second

end TimeOfDay

/-- A date, optionally with a time of day. -/
structure Moment where
  date : Date
  time : Option TimeOfDay
  deriving DecidableEq

namespace Moment

/-- A date without a time. -/
def onDate (year : Int) (month day : Nat) : Moment :=
  ⟨⟨year, month, day⟩, none⟩

/-- A date with a time of day. -/
def atTime (year : Int) (month day hour minute second : Nat) : Moment :=
  ⟨⟨year, month, day⟩, some (.of hour minute second)⟩

/-- Whether the moment has a time of day. -/
def hasTime (m : Moment) : Bool :=
  m.time.isSome

/-- The day of a moment, without the time. -/
def datePart (m : Moment) : Moment :=
  ⟨m.date, none⟩

/-- A moment of an existing date with an hour up to 24, a minute up to
59 and a second up to 60. -/
def IsValid (m : Moment) : Prop :=
  m.date.inCalendar = true ∧
    ∀ t ∈ m.time, t.hour ≤ 24 ∧ t.minute ≤ 59 ∧ t.second ≤ 60

instance (m : Moment) : Decidable m.IsValid :=
  match h : m.time with
  | none => decidable_of_iff (m.date.inCalendar = true) (by simp [IsValid, h])
  | some t =>
    decidable_of_iff
      (m.date.inCalendar = true ∧ t.hour ≤ 24 ∧ t.minute ≤ 59 ∧ t.second ≤ 60)
      (by simp [IsValid, h])

/-! ### Order -/

/-- No time comes before every time. -/
def timeLt : Option TimeOfDay → Option TimeOfDay → Prop
  | none, some _ => True
  | some a, some b => a < b
  | _, none => False

instance : (a b : Option TimeOfDay) → Decidable (timeLt a b)
  | none, some _ => inferInstanceAs (Decidable True)
  | some a, some b => inferInstanceAs (Decidable (a < b))
  | none, none => inferInstanceAs (Decidable False)
  | some _, none => inferInstanceAs (Decidable False)

/-- Moments are ordered by date, then by time. -/
protected def lt (a b : Moment) : Prop :=
  a.date < b.date ∨ a.date = b.date ∧ timeLt a.time b.time

instance : LT Moment := ⟨Moment.lt⟩

instance (a b : Moment) : Decidable (a < b) :=
  inferInstanceAs (Decidable (_ ∨ _))

instance : LE Moment := ⟨fun a b => ¬ b < a⟩

instance (a b : Moment) : Decidable (a ≤ b) :=
  inferInstanceAs (Decidable (¬ _))

/-! ### Moments as seconds -/

/-- The seconds of a day. -/
def daySeconds : Int := 86400

/-- Seconds from the beginning of day 0 to the moment, a date counting as the
midnight that begins it; none for a date or time that does not exist. -/
def seconds? (m : Moment) : Option Int :=
  if m.date.inCalendar then
    let start := m.date.days * daySeconds
    match m.time with
    | none => some start
    | some t =>
      if t.hour = 24 then
        if m.date.days < lastDay then some (start + daySeconds) else none
      else if t.hour ≤ 23 ∧ t.minute ≤ 59 ∧ t.second ≤ 60 then some (start + t.seconds)
      else none
  else none

/-- The date-time that many seconds after the beginning of day 0. -/
def ofSeconds (s : Int) : Moment :=
  let rest := (s % daySeconds).toNat
  ⟨.ofDays (s / daySeconds), some ⟨rest / 3600, rest / 60 % 60, rest % 60⟩⟩

/-- The moment that many seconds later, as long as it stays in the calendar. A
date moved by whole days stays a date. -/
def add? (m : Moment) (seconds : Int) : Option Moment :=
  if m.time = none ∧ seconds % daySeconds = 0 then
    let n := m.date.days + seconds / daySeconds
    if m.date.inCalendar ∧ firstDay ≤ n ∧ n ≤ lastDay then some ⟨.ofDays n, none⟩ else none
  else
    m.seconds?.bind fun start =>
      let s := start + seconds
      if firstDay * daySeconds ≤ s ∧ s < (lastDay + 1) * daySeconds then some (ofSeconds s)
      else none

end Moment

end Recurrence
