/-
# Spellings of an instant

An instant can be spelled in more ways than one: the midnight that ends a day is
also the one that begins the next, and a second of 60 is also the beginning of the
next minute. A date-time with such a time carries; of those that do not, no two
stand for the same instant. What is converted from one clock to another is written
anew and carries no longer, unless it stands for no instant at all.

The order of date-times is that of their instants, whatever they carry into: a later
one is no earlier instant, and the same instant only if the earlier one carries.

Key definitions: `Moment.SameInstant`, `Moment.Carries`, `Moment.Settled`.
Key theorems: `Moment.eq_of_sameInstant`, `Moment.orders_agree`,
`Zone.settled_localToUtc`.
-/
import Recurrence.Proofs.Moment.Seconds
import Recurrence.Zone.Basic

namespace Recurrence

open Calendar

namespace Moment

/-- Whether two date-times stand for the same instant. -/
def SameInstant (m m' : Moment) : Prop :=
  m.hasTime = true ∧ m'.hasTime = true ∧ ∃ s, m.seconds? = some s ∧ m'.seconds? = some s

/-- Whether the time of a moment runs over into the next day or minute. -/
def Carries (m : Moment) : Prop :=
  ∃ t ∈ m.time, t.hour = 24 ∨ t.second = 60

/-- Whether a moment does not carry, or stands for no instant. -/
def Settled (m : Moment) : Prop :=
  ∀ s ∈ m.seconds?, ¬ m.Carries

theorem carries_of_not_settled {m : Moment} (h : ¬ m.Settled) : m.Carries := by
  by_contra hcarries
  exact h fun _ _ => hcarries

theorem not_carries_ofSeconds (s : Int) : ¬ (ofSeconds s).Carries := by
  rintro ⟨t, ht, hcarries⟩
  obtain rfl := Option.some.inj ht
  simp only [daySeconds] at hcarries
  omega

/-- Only a time that runs over is spelled otherwise than from its seconds. -/
theorem eq_ofSeconds {m : Moment} {s : Int} (ht : m.hasTime = true) (hs : m.seconds? = some s)
    (hcarries : ¬ m.Carries) : m = ofSeconds s := by
  obtain ⟨date, time⟩ := m
  obtain ⟨t, rfl⟩ := Option.isSome_iff_exists.1 ht
  have hhour : t.hour ≠ 24 := fun h => hcarries ⟨t, rfl, Or.inl h⟩
  have hsecond : t.second ≠ 60 := fun h => hcarries ⟨t, rfl, Or.inr h⟩
  simp only [seconds?, Option.ite_none_right_eq_some] at hs
  obtain ⟨hdate, hs⟩ := hs
  rw [if_neg hhour, Option.ite_none_right_eq_some] at hs
  obtain ⟨hbounds, hs⟩ := hs
  obtain ⟨hour, minute, second⟩ := t
  simp only [TimeOfDay.seconds, daySeconds, Option.some.injEq] at hs hbounds hsecond
  have hday : s / daySeconds = date.days := by
    simp only [daySeconds]
    omega
  simp only [ofSeconds, hday, Date.ofDays_days hdate, Moment.mk.injEq, Option.some.injEq,
    TimeOfDay.mk.injEq, true_and]
  simp only [daySeconds]
  omega

/-- **Of the date-times that do not carry, each instant has one.** -/
theorem eq_of_sameInstant {m m' : Moment} (h : m.SameInstant m') (hm : m.Settled)
    (hm' : m'.Settled) : m = m' := by
  obtain ⟨ht, ht', s, hs, hs'⟩ := h
  rw [eq_ofSeconds ht hs (hm s hs), eq_ofSeconds ht' hs' (hm' s hs')]

/-! ### The order of instants -/

/-- A date-time is written again as it was from its seconds, unless it carries. -/
theorem ofSeconds_eq_iff {m : Moment} {s : Int} (ht : m.hasTime = true)
    (hs : m.seconds? = some s) : ofSeconds s = m ↔ ¬ m.Carries := by
  constructor
  · rintro rfl
    exact not_carries_ofSeconds s
  · exact fun h => (eq_ofSeconds ht hs h).symm

/-- A later date-time is a later instant, unless the earlier one carries. -/
theorem carries_of_lt {a b : Moment} (ha : a.InReach) (hb : b.InReach) (ht : a.hasTime = true)
    {s : Int} (hs : a.seconds? = some s) (hs' : b.seconds? = some s) (h : a < b) :
    a.Carries := by
  by_contra hcarries
  have hbounds := seconds_bounds hs
  have hin : InCalendar s := by
    refine inCalendar_of_near ha ?_ ?_ <;> simp only [daySeconds] at hbounds ⊢ <;> omega
  rw [eq_ofSeconds ht hs hcarries, ofSeconds_lt_iff hin hb.valid,
    ← Option.some.inj ((seconds_of_inReach hb).symm.trans hs')] at h
  exact lt_irrefl _ h

/-- **The order of date-times is the order of their instants.** Of two date-times the
later one is no earlier instant; if they are different spellings of one instant, one
of them carries; and just those that do not carry are written again as they were. -/
theorem orders_agree {a b : Moment} (ha : a.InReach) (hb : b.InReach)
    (hta : a.hasTime = true) (htb : b.hasTime = true) :
    ∃ s t, a.seconds? = some s ∧ b.seconds? = some t ∧
      (a ≤ b → s ≤ t) ∧ (s = t → a ≠ b → a.Carries ∨ b.Carries) ∧
      (ofSeconds s = a ↔ ¬ a.Carries) := by
  have hs := seconds_of_inReach ha
  have ht := seconds_of_inReach hb
  refine ⟨_, _, hs, ht, seconds_le_of_le ha.valid hb.valid, fun heq hne => ?_,
    ofSeconds_eq_iff hta hs⟩
  rcases lt_or_gt_of_ne hne with hlt | hlt
  · exact Or.inl (carries_of_lt ha hb hta hs (heq ▸ ht) hlt)
  · exact Or.inr (carries_of_lt hb ha htb ht (heq ▸ hs) hlt)

/-- The second 60 that ends the year 2005 and the midnight that ends its last day,
which is the same instant and the later spelling. -/
theorem orders_agree_newYear :
    ((atTime 2005 12 31 23 59 60).InReach ∧ (atTime 2005 12 31 24 0 0).InReach ∧
        atTime 2005 12 31 23 59 60 ≤ atTime 2005 12 31 24 0 0) ∧
      ∃ s t, (atTime 2005 12 31 23 59 60).seconds? = some s ∧
        (atTime 2005 12 31 24 0 0).seconds? = some t ∧ s ≤ t ∧
        (ofSeconds s = atTime 2005 12 31 23 59 60 ↔ ¬ (atTime 2005 12 31 23 59 60).Carries) := by
  have hleap : (atTime 2005 12 31 23 59 60).InReach := ⟨by decide, by decide⟩
  have hmidnight : (atTime 2005 12 31 24 0 0).InReach := ⟨by decide, by decide⟩
  have hle : atTime 2005 12 31 23 59 60 ≤ atTime 2005 12 31 24 0 0 := by decide
  obtain ⟨s, t, hs, ht, horder, -, hwritten⟩ := orders_agree hleap hmidnight rfl rfl
  exact ⟨⟨hleap, hmidnight, hle⟩, s, t, hs, ht, horder hle, hwritten⟩

end Moment

/-- A moment in UTC was written anew, or stands for no instant. -/
theorem Zone.settled_localToUtc (zone : Zone) (m : Moment) : (zone.localToUtc m).Settled := by
  unfold localToUtc
  by_cases ht : m.hasTime = true
  · rw [if_pos ht]
    cases hs : m.seconds? with
    | none =>
      intro s hs'
      rw [Option.map_none, Option.getD_none, hs] at hs'
      exact absurd hs' (by simp)
    | some s => exact fun _ _ => Moment.not_carries_ofSeconds _
  · rw [if_neg ht]
    rintro s - ⟨t, htime, -⟩
    exact ht (Option.isSome_iff_exists.2 ⟨t, htime⟩)

end Recurrence
