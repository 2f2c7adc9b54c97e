/-
# Rules that keep their time of day

A rule that repeats daily or less often and lists no hours, minutes or seconds
repeats the time of day of its start on the clocks of its zone, whatever becomes of
their offset. The clocks show this time at each of its instants, unless they skip
it there; then they show a time as much later as they were put forward.

Key theorems: `Rule.time_of_mem_pending`, `RuleSource.reply_keeps_time`.
-/
import Recurrence.Proofs.Moment.Spelling
import Recurrence.Proofs.Source.CalendarEnds
import Recurrence.Proofs.Source.Conversion
import Recurrence.Proofs.Source.Draws
import Recurrence.Proofs.Zone.Skips

namespace Recurrence

open Calendar

/-! ### There and back -/

/-- A date-time of seconds that is valid stands for them. -/
theorem Moment.seconds_of_isValid_ofSeconds {u : Int} (h : (ofSeconds u).IsValid) :
    (ofSeconds u).seconds? = some u :=
  seconds_ofSeconds (Date.bounds_of_hasYear ((Date.inCalendar_iff _).1 h.1).1)

namespace TransitionTable

variable {table : TransitionTable} {m : Moment} {wall : Int}

/-- The instant of a time on the clocks, as the clocks show it in turn. -/
theorem utcToLocal_localToUtc (ht : m.hasTime = true) (hs : m.seconds? = some wall)
    (hv : (table.zone.localToUtc m).IsValid) :
    table.zone.utcToLocal (table.zone.localToUtc m) =
      .ofSeconds (table.zone.fromUtc (table.zone.toUtc wall)) := by
  have hutc : table.zone.localToUtc m = .ofSeconds (table.zone.toUtc wall) := by
    rw [Zone.localToUtc, if_pos ht, hs]
    rfl
  rw [hutc] at hv ⊢
  rw [Zone.utcToLocal, if_pos (show (Moment.ofSeconds _).hasTime = true from rfl),
    Moment.seconds_of_isValid_ofSeconds hv]
  rfl

/-- **Converted to UTC and back, a time is the same** unless a transition skips it,
which moves it forward by the length of the gap. -/
theorem utcToLocal_localToUtc_eq (hz : table.Sparse) (ht : m.hasTime = true)
    (hs : m.seconds? = some wall) (hcarries : ¬ m.Carries)
    (hv : (table.zone.localToUtc m).IsValid) :
    ((∀ t ∈ table.transitions, ¬ table.SkipsAt t.start wall) →
      table.zone.utcToLocal (table.zone.localToUtc m) = m) ∧
    ∀ t ∈ table.transitions, table.SkipsAt t.start wall →
      table.zone.utcToLocal (table.zone.localToUtc m) =
        .ofSeconds (wall + table.shiftAt t.start) := by
  rw [utcToLocal_localToUtc ht hs hv]
  refine ⟨fun hno => ?_, fun t htrans hskip => by rw [hskip.fromUtc_toUtc hz htrans]⟩
  have hshows : table.zone.Shows wall := by
    by_contra hskips
    obtain ⟨t, htrans, hskip⟩ := (not_shows_iff hz).1 hskips
    exact hno t htrans hskip
  rw [(toUtc_of_shows hshows).1]
  exact (Moment.eq_ofSeconds ht hs hcarries).symm

end TransitionTable

/-! ### Candidates with the time of the start -/

namespace Rule

variable {rule : Rule} {start : Moment} {limits : Limits}

/-- A field of the time that is finer than the periods of a rule and is not listed
is that of the start. -/
theorem get_of_takes {b s threshold : Stamp} {f : TimeField} (hf : f ∈ rule.timeFields)
    (hempty : f.values = []) (hrank : f.frequency.rank < rule.frequency.rank)
    (h : ∀ level ∈ rule.levels s threshold false, level.Takes b) :
    b.get f.field = s.get f.field := by
  have htakes := h (rule.timeLevel s f) (List.mem_append_right _ (List.mem_map.2 ⟨f, hf, rfl⟩))
  have hother : rule.frequency ≠ f.frequency := fun heq => by
    rw [heq] at hrank
    exact Nat.lt_irrefl _ hrank
  rw [timeLevel, if_neg hother, if_neg (not_not.2 hempty), if_neg (by omega),
    takes_listLevel hf, List.mem_singleton] at htakes
  exact htakes

/-- **The candidates of a rule that repeats daily or less often** and lists no times
have the time of the start. -/
theorem time_of_mem_pending (hfrequency : Frequency.daily.rank ≤ rule.frequency.rank)
    (hhour : rule.byHour = []) (hminute : rule.byMinute = []) (hsecond : rule.bySecond = [])
    {t : TimeOfDay} (htime : start.time = some t) {c : Stamp}
    (hc : c ∈ (rule.candidates start limits).cascade.pending) :
    c.hour = t.hour ∧ c.minute = t.minute ∧ c.second = t.second := by
  obtain ⟨-, -, htakes⟩ := (mem_pending rule start limits c).1 hc
  rw [show (!start.hasTime) = false by simp [Moment.hasTime, htime]] at htakes
  have hget := fun f hf he hr => @get_of_takes rule c _ _ f hf he hr htakes
  simp only [timeFields, List.mem_cons, List.not_mem_nil, or_false, forall_eq_or_imp,
    forall_eq] at hget
  have hranks : Frequency.hourly.rank < Frequency.daily.rank ∧
    Frequency.minutely.rank < Frequency.daily.rank ∧
    Frequency.secondly.rank < Frequency.daily.rank := by decide
  have hstart : ∀ f, (Stamp.ofMoment start).get f =
      (Stamp.ofMoment ⟨start.date, some t⟩).get f := by
    rw [← htime]
    exact fun _ => rfl
  simp only [hstart] at hget
  exact ⟨hget.1 hhour (by omega), hget.2.1 hminute (by omega), hget.2.2 hsecond (by omega)⟩

end Rule

namespace RuleSource

variable {rule : Rule} {start : Moment} {table : TransitionTable} {limits : Limits}

/-- **A rule without times of its own keeps the time of its start on the clocks.**
Every moment of the calendar that its cursor names, whatever it is asked, is the
instant of a candidate with that time. The clocks show the candidate then, unless a transition
skips it; if one does, they show the time as much later as they were put forward. -/
theorem reply_keeps_time (hr : rule.InRange)
    (hfrequency : Frequency.daily.rank ≤ rule.frequency.rank) (hhour : rule.byHour = [])
    (hminute : rule.byMinute = []) (hsecond : rule.bySecond = []) (hstart : start.IsValid)
    {t : TimeOfDay} (htime : start.time = some t) (hplain : t.hour ≤ 23 ∧ t.second ≤ 59)
    (hz : table.Sparse) {qs : List Query} {v : Moment} (hv : v.IsValid)
    (hreply : .moment (some v) ∈ (Cursor.idle (of rule start table.zone limits)).replies qs) :
    ∃ c ∈ (rule.candidates start limits).cascade.pending,
      (c.toMoment false).time = start.time ∧ table.zone.localToUtc (c.toMoment false) = v ∧
      ((∀ t ∈ table.transitions, ¬ table.SkipsAt t.start c.wall) →
        table.zone.utcToLocal v = c.toMoment false) ∧
      ∀ t ∈ table.transitions, table.SkipsAt t.start c.wall →
        table.zone.utcToLocal v = .ofSeconds (c.wall + table.shiftAt t.start) := by
  obtain ⟨c, hc, rfl⟩ := exists_of_reply hreply
  have hpending : c ∈ (rule.candidates start limits).cascade.pending :=
    Rule.reserve_candidates rule start limits ▸ hc
  have hinstant : (of rule start table.zone limits).instant c =
      table.zone.localToUtc (c.toMoment false) := by
    simp only [instant, of, Moment.hasTime, htime, Option.isSome_some, Bool.not_true]
  obtain ⟨hhour', hminute', hsecond'⟩ :=
    Rule.time_of_mem_pending hfrequency hhour hminute hsecond htime hpending
  have htime' : (c.toMoment false).time = some t := by
    simp only [Stamp.toMoment, TimeOfDay.of, Bool.false_eq_true, if_false, hhour', hminute',
      hsecond', if_neg (show ¬ t.hour ≥ 24 by omega)]
  have hcarries : ¬ (c.toMoment false).Carries := by
    rintro ⟨t', ht', hcarries⟩
    rw [htime', Option.mem_some_iff] at ht'
    subst ht'
    omega
  have hseconds := Stamp.seconds_toMoment (Rule.valid_of_mem_pending hr hstart hpending).1
    (fun h => by omega)
  rw [hinstant] at hv ⊢
  exact ⟨c, hpending, htime'.trans htime.symm, rfl,
    TransitionTable.utcToLocal_localToUtc_eq hz rfl hseconds hcarries hv⟩

/-- Half past two every day, also on the day on which the clocks of New York skip
it. -/
theorem reply_keeps_time_summerTime :
    let start := Moment.atTime 2007 3 10 2 30 0
    let v := Moment.atTime 2007 3 11 7 30 0
    ∃ c ∈ ((Rule.every .daily).candidates start ⟨2, 2007⟩).cascade.pending,
      (c.toMoment false).time = start.time ∧
      summerTime.zone.localToUtc (c.toMoment false) = v ∧
      ((∀ t ∈ summerTime.transitions, ¬ summerTime.SkipsAt t.start c.wall) →
        summerTime.zone.utcToLocal v = c.toMoment false) ∧
      ∀ t ∈ summerTime.transitions, summerTime.SkipsAt t.start c.wall →
        summerTime.zone.utcToLocal v = .ofSeconds (c.wall + summerTime.shiftAt t.start) :=
  have hreply : Answer.moment (some (.atTime 2007 3 11 7 30 0)) ∈ (Cursor.idle (of (.every .daily)
      (.atTime 2007 3 10 2 30 0) summerTime.zone ⟨2, 2007⟩)).replies [.next, .next] := by
    decide +kernel
  reply_keeps_time (by constructor <;> simp [Rule.every]) (by decide) rfl rfl rfl (by decide) rfl
    (by decide) summerTime_sparse (by decide) hreply

end RuleSource

end Recurrence
