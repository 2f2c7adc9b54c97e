/-
# Zones by their offsets

Whatever a zone is made from, each of its conversions moves a time by one of the
zone's offsets. If these stay below a day, a date and its wall-clock time lie at
most a day apart.

Key definitions: `Zone.HasOffsets`, `Zone.Moderate`.
Key theorems: `Zone.HasOffsets.toUtc`, `Zone.HasOffsets.fromUtc`, `Zone.localToUtc_of_time`,
`Zone.utcToLocal_date`.
-/
import Recurrence.Proofs.Moment.Seconds
import Recurrence.Zone.Basic

namespace Recurrence

open Calendar

/-! ### The offsets of a table -/

namespace OffsetTree

theorem offsetAt_mem (offset : Int) (transitions : List Transition) (u : Int) :
    (ofList offset transitions).offsetAt u ∈ offset :: transitions.map Transition.offset := by
  fun_induction ofList offset transitions with
  | case1 => exact List.mem_cons_self
  | case2 offset transitions half t rest hcut ih₁ ih₂ =>
    have hmem : ∀ x ∈ t :: rest, x ∈ transitions := fun x hx =>
      List.mem_of_mem_drop (hcut ▸ hx)
    unfold offsetAt
    split
    · rcases List.mem_cons.1 ih₁ with h | h
      · rw [h]
        exact List.mem_cons_self
      · obtain ⟨x, hx, hxo⟩ := List.mem_map.1 h
        exact List.mem_cons_of_mem _ (List.mem_map.2 ⟨x, List.mem_of_mem_take hx, hxo⟩)
    · rw [← List.map_cons] at ih₂
      obtain ⟨x, hx, hxo⟩ := List.mem_map.1 ih₂
      exact List.mem_cons_of_mem _ (List.mem_map.2 ⟨x, hmem x hx, hxo⟩)

end OffsetTree

namespace Zone

/-- What zones are made from, with the offsets they know. -/
inductive HasOffsets : Zone → List Int → Prop
  | utc : HasOffsets utc [0]
  | fixed (offset : Int) : HasOffsets (fixed offset) [offset]
  | table (table : TransitionTable) : HasOffsets table.zone table.offsets

/-- Whether offsets are less than a day, and at most a day apart. -/
structure Moderate (offsets : List Int) : Prop where
  small : ∀ o ∈ offsets, -86400 < o ∧ o < 86400
  close : ∀ o ∈ offsets, ∀ o' ∈ offsets, o' - o ≤ 86400

variable {zone : Zone} {offsets : List Int}

theorem offsetAt_mem_offsets (table : TransitionTable) (u : Int) :
    (OffsetTree.ofList table.first table.transitions).offsetAt u ∈ table.offsets := by
  rw [TransitionTable.offsets, List.mem_eraseDups]
  exact OffsetTree.offsetAt_mem _ _ u

theorem HasOffsets.fromUtc (h : zone.HasOffsets offsets) (u : Int) :
    ∃ o ∈ offsets, zone.fromUtc u = u + o := by
  cases h with
  | utc => exact ⟨0, List.mem_singleton_self 0, (Int.add_zero u).symm⟩
  | fixed o => exact ⟨o, List.mem_singleton_self o, rfl⟩
  | table table => exact ⟨_, offsetAt_mem_offsets table u, rfl⟩

theorem HasOffsets.toUtc (h : zone.HasOffsets offsets) (wall : Int) :
    ∃ o ∈ offsets, zone.toUtc wall = wall - o := by
  cases h with
  | utc => exact ⟨0, List.mem_singleton_self 0, (Int.sub_zero wall).symm⟩
  | fixed o => exact ⟨o, List.mem_singleton_self o, rfl⟩
  | table table =>
    simp only [TransitionTable.zone]
    cases hmin : (TransitionTable.instantsAt
        (OffsetTree.ofList table.first table.transitions).offsetAt table.offsets wall).min? with
    | none => exact ⟨_, offsetAt_mem_offsets table _, rfl⟩
    | some u =>
      have hu := List.min?_mem hmin
      rw [TransitionTable.instantsAt, List.mem_filter, List.mem_map] at hu
      obtain ⟨⟨o, ho, rfl⟩, -⟩ := hu
      exact ⟨o, ho, rfl⟩

/-! ### Moments on other clocks -/

/-- The seconds that a moment of the calendar stands for. -/
theorem localToUtc_of_time (h : zone.HasOffsets offsets) {m : Moment} (hm : m.InReach)
    (ht : m.hasTime = true) : ∃ o ∈ offsets,
      zone.localToUtc m = .ofSeconds (m.date.days * Moment.daySeconds + m.daytime - o) := by
  obtain ⟨o, ho, hutc⟩ := h.toUtc (m.date.days * Moment.daySeconds + m.daytime)
  refine ⟨o, ho, ?_⟩
  rw [localToUtc, if_pos ht, Moment.seconds_of_inReach hm, Option.map_some, Option.getD_some,
    hutc]

theorem utcToLocal_of_time (h : zone.HasOffsets offsets) {m : Moment} (hm : m.InReach)
    (ht : m.hasTime = true) : ∃ o ∈ offsets,
      zone.utcToLocal m = .ofSeconds (m.date.days * Moment.daySeconds + m.daytime + o) := by
  obtain ⟨o, ho, hlocal⟩ := h.fromUtc (m.date.days * Moment.daySeconds + m.daytime)
  refine ⟨o, ho, ?_⟩
  rw [utcToLocal, if_pos ht, Moment.seconds_of_inReach hm, Option.map_some, Option.getD_some,
    hlocal]

theorem localToUtc_of_date {m : Moment} (ht : m.hasTime = false) : zone.localToUtc m = m := by
  rw [localToUtc, if_neg (by simp [ht])]

theorem utcToLocal_of_date {m : Moment} (ht : m.hasTime = false) : zone.utcToLocal m = m := by
  rw [utcToLocal, if_neg (by simp [ht])]

/-- Read in UTC, a date-time keeps its seconds. -/
theorem utc_localToUtc {m : Moment} (hm : m.InReach) (ht : m.hasTime = true) :
    utc.localToUtc m = .ofSeconds (m.date.days * Moment.daySeconds + m.daytime) := by
  rw [localToUtc, if_pos ht, Moment.seconds_of_inReach hm]
  rfl

/-- The date that the clocks of a zone show is that of the date itself, or that
of the time an offset later. -/
theorem utcToLocal_date (h : zone.HasOffsets offsets) (hm : Moderate offsets) {m : Moment}
    (hr : m.InReach) : (zone.utcToLocal m).date.inCalendar = true ∧
      ((m.hasTime = false ∧ (zone.utcToLocal m).date.days = m.date.days) ∨
        (m.hasTime = true ∧ ∃ o ∈ offsets, (zone.utcToLocal m).date.days =
          (m.date.days * Moment.daySeconds + m.daytime + o) / Moment.daySeconds)) := by
  cases ht : m.hasTime with
  | false =>
    rw [utcToLocal_of_date ht]
    exact ⟨hr.valid.1, Or.inl ⟨rfl, rfl⟩⟩
  | true =>
    obtain ⟨o, ho, hlocal⟩ := utcToLocal_of_time h hr ht
    have hsmall := hm.small o ho
    have hdaytime := Moment.daytime_bounds hr.valid
    have hnear : Moment.InCalendar (m.date.days * Moment.daySeconds + m.daytime + o) :=
      Moment.inCalendar_of_near hr (by simp only [Moment.daySeconds] at *; omega)
        (by simp only [Moment.daySeconds] at *; omega)
    rw [hlocal]
    exact ⟨Date.inCalendar_ofDays hnear.1 hnear.2,
      Or.inr ⟨rfl, o, ho, Date.days_ofDays hnear.1 hnear.2⟩⟩

end Zone

end Recurrence
