/-
# What periods cover

A period covers the moments from its start up to its end, the end left out. The tests of
two periods compare their ends only. That a period contains another then means that it
covers all that the other does, unless the other is empty; that two periods intersect means
that some moment is covered by both, unless one of them is empty and begins inside the
other: such a period intersects the other by its ends, and covers nothing.

A period of a given length is accepted exactly when its end lies in the calendar, the length
is not negative, and a date has been given whole days.

Key definitions: `Period.Covers`, `Period.TestsAgree`, `Period.EmptyWithin`.
Key theorems: `Period.exists_covers_iff`, `Period.contains_iff_covers`,
`Period.testsAgree_iff`, `Period.not_testsAgree_emptyWithin`, `Period.lasting_accepts_iff`.
-/
import Recurrence.Period
import Recurrence.Proofs.Moment.Addition
import Recurrence.Proofs.Reading

namespace Recurrence

namespace Period

variable {a b : Period}

/-- Whether a moment lies in a period: not before its start, and before its end. -/
def Covers (p : Period) (m : Moment) : Prop :=
  p.start ≤ m ∧ m < p.finish

/-- Whether a period is empty and lies inside another, at neither of its ends. -/
def EmptyWithin (p q : Period) : Prop :=
  p.start = p.finish ∧ q.start < p.start ∧ p.start < q.finish

/-- Whether the tests of two periods say what the moments that they cover say: they
intersect when some moment is covered by both, and the first contains the second only when
it covers all that the second does, and always then unless the second is empty. -/
structure TestsAgree (a b : Period) : Prop where
  intersects : a.intersects b = true ↔ ∃ m, a.Covers m ∧ b.Covers m
  covers_of_contains : a.contains b = true → ∀ m, b.Covers m → a.Covers m
  contains_of_covers : b.start < b.finish → (∀ m, b.Covers m → a.Covers m) →
    a.contains b = true

/-! ### The tests -/

theorem intersects_iff : a.intersects b = true ↔ a.start < b.finish ∧ b.start < a.finish := by
  rw [intersects, Bool.and_eq_true, decide_eq_true_eq, decide_eq_true_eq]

theorem contains_iff : a.contains b = true ↔ a.start ≤ b.start ∧ b.finish ≤ a.finish := by
  rw [contains, Bool.and_eq_true, decide_eq_true_eq, decide_eq_true_eq]

/-- **When some moment is covered by both of two periods**: the later of their starts is, if
any. -/
theorem exists_covers_iff : (∃ m, a.Covers m ∧ b.Covers m) ↔
    (a.start < a.finish ∧ b.start < b.finish) ∧ a.start < b.finish ∧ b.start < a.finish := by
  constructor
  · rintro ⟨m, ⟨hsa, hfa⟩, hsb, hfb⟩
    exact ⟨⟨hsa.trans_lt hfa, hsb.trans_lt hfb⟩, hsa.trans_lt hfb, hsb.trans_lt hfa⟩
  · rintro ⟨⟨ha, hb⟩, hab, hba⟩
    exact ⟨max a.start b.start, ⟨le_max_left _ _, max_lt ha hba⟩,
      le_max_right _ _, max_lt hab hb⟩

theorem covers_of_contains (h : a.contains b = true) {m : Moment} (hm : b.Covers m) :
    a.Covers m := by
  rw [contains_iff] at h
  exact ⟨h.1.trans hm.1, hm.2.trans_le h.2⟩

/-- **A period contains another that is not empty exactly when it covers all of it.** -/
theorem contains_iff_covers (hb : b.start < b.finish) :
    a.contains b = true ↔ ∀ m, b.Covers m → a.Covers m := by
  refine ⟨fun h m => covers_of_contains h, fun h => contains_iff.2 ?_⟩
  have hstart : a.Covers b.start := h b.start ⟨le_refl _, hb⟩
  refine ⟨hstart.1, ?_⟩
  -- the end of the first is not covered by it, so the second does not reach beyond it
  by_contra hfinish
  have hbeyond : a.Covers a.finish := h a.finish ⟨hstart.2.le, not_le.1 hfinish⟩
  exact lt_irrefl _ hbeyond.2

/-- **When the tests of two periods agree with what they cover**: unless one of them is empty
and lies inside the other. -/
theorem testsAgree_iff {start finish start' finish' : Moment}
    (ha : between start finish = .ok a) (hb : between start' finish' = .ok b) :
    TestsAgree a b ↔ ¬ a.EmptyWithin b ∧ ¬ b.EmptyWithin a := by
  obtain ⟨-, hale, rfl⟩ := between_eq_ok_iff.1 ha
  obtain ⟨-, hble, rfl⟩ := between_eq_ok_iff.1 hb
  constructor
  · rintro ⟨hintersects, -, -⟩
    rw [intersects_iff, exists_covers_iff] at hintersects
    refine ⟨fun ⟨hempty, hlow, hhigh⟩ => ?_, fun ⟨hempty, hlow, hhigh⟩ => ?_⟩
    · exact (hintersects.1 ⟨hhigh, hempty ▸ hlow⟩).1.1.ne hempty
    · exact (hintersects.1 ⟨hempty ▸ hlow, hhigh⟩).1.2.ne hempty
  · rintro ⟨hab, hba⟩
    refine ⟨?_, fun h m => covers_of_contains h, fun hb => (contains_iff_covers hb).2⟩
    rw [intersects_iff, exists_covers_iff]
    refine ⟨fun h => ⟨⟨hale.lt_of_ne ?_, hble.lt_of_ne ?_⟩, h⟩, And.right⟩
    · exact fun hempty => hab ⟨hempty, hempty ▸ h.2, h.1⟩
    · exact fun hempty => hba ⟨hempty, hempty ▸ h.1, h.2⟩

/-- A day and the date-times of its morning: the day covers them, and is not covered. -/
theorem testsAgree_iff_morning :
    let day : Period := ⟨.onDate 2006 4 13, .onDate 2006 4 14⟩
    let morning : Period := ⟨.atTime 2006 4 13 0 0 0, .atTime 2006 4 13 12 0 0⟩
    (between day.start day.finish = .ok day ∧
        between morning.start morning.finish = .ok morning) ∧
      TestsAgree day morning ∧ day.contains morning = true ∧ day.intersects morning = true ∧
        morning.contains day = false := by
  intro day morning
  have hday : between day.start day.finish = .ok day :=
    between_eq_ok_iff.2 ⟨rfl, by decide, rfl⟩
  have hmorning : between morning.start morning.finish = .ok morning :=
    between_eq_ok_iff.2 ⟨rfl, by decide, rfl⟩
  refine ⟨⟨hday, hmorning⟩, (testsAgree_iff hday hmorning).2 ⟨?_, ?_⟩, by decide, by decide,
    by decide⟩
  · exact fun h => absurd h.1 (by decide)
  · exact fun h => absurd h.1 (by decide)

/-- **An empty period shares no moment with a period that it intersects.** It lies inside the
other, and its ends are told to intersect. -/
theorem not_testsAgree_emptyWithin :
    let empty : Period := ⟨.onDate 2006 1 5, .onDate 2006 1 5⟩
    let around : Period := ⟨.onDate 2006 1 1, .onDate 2006 1 10⟩
    (between empty.start empty.finish = .ok empty ∧
        between around.start around.finish = .ok around) ∧
      (empty.intersects around = true ∧ around.intersects empty = true) ∧
        (¬ ∃ m, empty.Covers m ∧ around.Covers m) ∧ ¬ TestsAgree empty around := by
  intro empty around
  have hintersects : empty.intersects around = true ∧ around.intersects empty = true := by
    decide
  have hnone : ¬ ∃ m, empty.Covers m ∧ around.Covers m := by
    rw [exists_covers_iff]
    decide
  exact ⟨⟨between_eq_ok_iff.2 ⟨rfl, by decide, rfl⟩, between_eq_ok_iff.2 ⟨rfl, by decide, rfl⟩⟩,
    hintersects, hnone, fun hagree => hnone (hagree.intersects.1 hintersects.1)⟩

/-! ### Periods of a given length -/

open Moment

/-- A period of some length runs to the moment that its start becomes. -/
theorem lasting_eq_ok_iff {start : Moment} {n : Int} {p : Period} :
    lasting start n = .ok p ↔ ∃ finish, start.add? n = some finish ∧
      start.hasTime = finish.hasTime ∧ start ≤ finish ∧ p = ⟨start, finish⟩ := by
  unfold lasting
  cases h : start.add? n with
  | none => simp
  | some finish => simp only [between_eq_ok_iff, Option.some.injEq, exists_eq_left']

/-- **Time that passes keeps the order, and so a length is accepted when it should be.** What
a moment becomes is not before it exactly when the seconds are not negative, and is a date
only if a date was given whole days. So a period of some length is accepted exactly when its
end lies in the calendar, the length is not negative, and the start has a time or the length
is one of whole days; it then runs from its start to a moment of the same kind that is not
before it. -/
theorem lasting_accepts_iff {start : Moment} (h : start.InReach) (n : Int) :
    ∃ s, start.seconds? = some s ∧
      ((∃ e, start.add? n = some e) ↔ InCalendar (s + n)) ∧
      (∀ e, start.add? n = some e → e.seconds? = some (s + n) ∧ (start ≤ e ↔ 0 ≤ n) ∧
        (e.hasTime = false ↔ start.hasTime = false ∧ daySeconds ∣ n)) ∧
      ((∃ p, lasting start n = .ok p) ↔
        InCalendar (s + n) ∧ 0 ≤ n ∧ (start.hasTime = true ∨ daySeconds ∣ n)) ∧
      ∀ p, lasting start n = .ok p → start.add? n = some p.finish ∧ p.start = start ∧
        p.start ≤ p.finish ∧ p.start.hasTime = p.finish.hasTime := by
  refine ⟨_, seconds_of_inReach h, exists_add?_iff h, ?_, ?_, ?_⟩
  · exact fun e he => ⟨seconds_of_add? h he, le_add?_iff h he, hasTime_of_add? h he⟩
  · rw [← exists_add?_iff h]
    -- the end is of the kind of the start unless it has gained a time
    have hkind : ∀ e, start.add? n = some e →
        (start.hasTime = e.hasTime ↔ start.hasTime = true ∨ daySeconds ∣ n) := by
      intro e he
      have hdate := hasTime_of_add? h he
      cases ht : start.hasTime <;> cases ht' : e.hasTime <;> simp_all
    simp only [lasting_eq_ok_iff]
    constructor
    · rintro ⟨p, finish, he, hsame, hle, -⟩
      exact ⟨⟨finish, he⟩, (le_add?_iff h he).1 hle, (hkind finish he).1 hsame⟩
    · rintro ⟨⟨finish, he⟩, hn, hwhole⟩
      exact ⟨_, finish, he, (hkind finish he).2 hwhole, (le_add?_iff h he).2 hn, rfl⟩
  · intro p hp
    obtain ⟨finish, he, hsame, hle, rfl⟩ := lasting_eq_ok_iff.1 hp
    exact ⟨he, rfl, hle, hsame⟩

/-- From a second of 60 no time at all is accepted, and leads to a later spelling; half a day
from a date is not. -/
theorem lasting_accepts_iff_leapSecond :
    let leap : Moment := .atTime 2005 12 31 23 59 60
    let day : Moment := .onDate 2005 12 31
    (leap.InReach ∧ ∃ p, lasting leap 0 = .ok p ∧ leap ≤ p.finish ∧ p.finish ≠ leap) ∧
      day.InReach ∧ (∃ e, day.add? 43200 = some e) ∧ ¬ ∃ p, lasting day 43200 = .ok p := by
  intro leap day
  have hleap : leap.InReach := ⟨by decide, by decide⟩
  have hday : day.InReach := ⟨by decide, by decide⟩
  obtain ⟨s, hs, -, -, haccepts, hperiod⟩ := lasting_accepts_iff hleap 0
  obtain ⟨s', hs', hadd, -, hrefuses, -⟩ := lasting_accepts_iff hday 43200
  obtain rfl : 1136073600 = s := Option.some.inj ((by decide : _ = leap.seconds?).trans hs)
  obtain rfl : 1135987200 = s' := Option.some.inj ((by decide : _ = day.seconds?).trans hs')
  obtain ⟨p, hp⟩ := haccepts.2 ⟨by unfold InCalendar; decide, le_refl 0, Or.inl rfl⟩
  obtain ⟨hfinish, hstart, hle, -⟩ := hperiod p hp
  refine ⟨⟨hleap, p, hp, hstart ▸ hle, fun heq => ?_⟩, hday,
    hadd.2 (by unfold InCalendar; decide), ?_⟩
  · rw [heq] at hfinish
    exact absurd hfinish (by decide)
  · rw [hrefuses]
    exact fun hall => absurd hall.2.2 (by decide)

end Period

end Recurrence
