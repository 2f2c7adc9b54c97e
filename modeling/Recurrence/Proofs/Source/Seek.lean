/-
# Passing to a date in a rule

To pass to a date, a rule without a count or positions drops the candidates
before the day before that date on its own clocks. An offset is less than a day,
so a candidate that is dropped gives an instant before the date, with one
exception: the midnight that ends its day, under an offset a whole day greater
than the one the date is read with, is the date itself. So the iterator of a
rule is a cursor over its instants exactly if each instant is still reached from
the day before it (`RuleSource.Reaches`), which is so whenever no two offsets
lie a whole day apart or no time is carried over midnight.

Key definitions: `RuleSource.dayBefore`, `RuleSource.Reaches`, `RuleSource.DropsSafely`.
Key theorems: `RuleSource.instant_of_lt_dayBefore`, `RuleSource.emitted_prune`,
`RuleSource.seek_stands`, `RuleSource.follows_emitted`, `RuleSource.reaches_of_follows`.
-/
import Recurrence.Proofs.Source.Emission
import Recurrence.Proofs.Zone.Offsets

namespace Recurrence

open Calendar

/-! ### Candidates well inside the calendar -/

/-- Whether a stamp is a valid moment. -/
structure Stamp.IsValid (c : Stamp) : Prop where
  date : c.date.inCalendar = true
  hour : c.hour ≤ 24
  minute : c.minute ≤ 59
  second : c.second ≤ 60

/-- Whether a stamp is a valid moment far from the ends of the calendar. -/
structure Stamp.InReach (c : Stamp) : Prop extends c.IsValid where
  year : -200000 ≤ c.year ∧ c.year ≤ 200000

theorem Stamp.toMoment_isValid {c : Stamp} (h : c.IsValid) (dateOnly : Bool) :
    (c.toMoment dateOnly).IsValid := by
  have := h.hour; have := h.minute; have := h.second
  unfold toMoment
  split
  · exact ⟨h.date, by simp⟩
  · refine ⟨h.date, fun t ht => ?_⟩
    rw [Option.mem_some_iff] at ht
    subst ht
    unfold TimeOfDay.of
    split
    · simp
    · exact ⟨h.hour, h.minute, h.second⟩

theorem Stamp.toMoment_date (c : Stamp) (dateOnly : Bool) :
    (c.toMoment dateOnly).date = c.date := by
  unfold toMoment
  split <;> rfl

theorem Stamp.toMoment_inReach {c : Stamp} (h : c.InReach) (dateOnly : Bool) :
    (c.toMoment dateOnly).InReach :=
  ⟨toMoment_isValid h.toIsValid dateOnly, by rw [toMoment_date]; exact h.year⟩

/-- A time reaches the end of its day only as 24:00:00 or 23:59:60. -/
theorem Stamp.daytime_eq {c : Stamp} (h : c.IsValid)
    (hend : (c.toMoment false).daytime = Moment.daySeconds) : c.hour = 24 ∨ c.second = 60 := by
  have := h.hour; have := h.minute; have := h.second
  simp only [toMoment, Moment.daytime, TimeOfDay.of, TimeOfDay.seconds, Moment.daySeconds,
    Bool.false_eq_true, if_false] at hend
  split at hend <;> split at hend <;> simp only at * <;> omega

theorem Stamp.date_lt_of_lt_ofDate {c : Stamp} {d : Date} (h : c < .ofDate d) : c.date < d := by
  rw [Stamp.lt_iff] at h
  rw [Date.lt_iff]
  simp only [ofDate, date] at *
  omega

namespace RuleSource

/-! ### The day before a date -/

/-- The midnight before which candidates are dropped for a date: that of the day
before it on the clocks of the zone. -/
def dayBefore (s : RuleSource) (date : Moment) : Stamp :=
  .ofDate ((s.zone.utcToLocal date).date.addDays (-1))

/-- A candidate before the day before a date lies two days before it on the
clocks of the zone, where the date has no time or shows at one of the offsets. -/
theorem days_of_lt_dayBefore {s : RuleSource} {offsets : List Int}
    (hz : s.zone.HasOffsets offsets) (hm : Zone.Moderate offsets) {c : Stamp} (hc : c.InReach)
    {d : Moment} (hd : d.InReach) (h : c < s.dayBefore d) :
    (d.hasTime = false ∧ c.date.days + 2 ≤ d.date.days) ∨
      (d.hasTime = true ∧ ∃ o ∈ offsets,
        (c.date.days + 2) * 86400 ≤ d.date.days * 86400 + d.daytime + o) := by
  have hinside := Moment.days_inside hd.valid.1 hd.year.1 hd.year.2
  have hdaytime := Moment.daytime_bounds hd.valid
  obtain ⟨hin, hlocal⟩ := Zone.utcToLocal_date hz hm hd
  simp only [Moment.daySeconds] at hdaytime hlocal
  have hfirst : firstDay < (s.zone.utcToLocal d).date.days := by
    rcases hlocal with ⟨-, hlocal⟩ | ⟨-, o, ho, hlocal⟩
    · omega
    · have := hm.small o ho
      omega
  have hlast := (Date.days_mem_calendar hin).2
  unfold dayBefore Date.addDays at h
  rw [Date.dayNumber_eq hin, Date.ofDayNumber_eq (by omega) (by omega)] at h
  have hlt := Date.days_lt_of_lt hc.date (Date.inCalendar_ofDays (by omega) (by omega))
    (Stamp.date_lt_of_lt_ofDate h)
  rw [Date.days_ofDays (by omega) (by omega)] at hlt
  rcases hlocal with ⟨ht, hlocal⟩ | ⟨ht, o, ho, hlocal⟩
  · exact Or.inl ⟨ht, by omega⟩
  · exact Or.inr ⟨ht, o, ho, by omega⟩

/-- Without times, a candidate before the day before a date gives an instant
before the date. -/
theorem instant_lt_of_dateOnly {s : RuleSource} {offsets : List Int}
    (hz : s.zone.HasOffsets offsets) (hm : Zone.Moderate offsets) (hs : s.dateOnly = true)
    {c : Stamp} (hc : c.InReach) {d : Moment} (hd : d.InReach) (h : c < s.dayBefore d) :
    s.instant c < d := by
  have hinstant : s.instant c = ⟨c.date, none⟩ := by
    rw [instant, hs]
    exact Zone.localToUtc_of_date rfl
  have hdaytime := Moment.daytime_bounds hd.valid
  simp only [Moment.daySeconds] at hdaytime
  have hlt : c.date.days < d.date.days := by
    rcases days_of_lt_dayBefore hz hm hc hd h with ⟨-, hdays⟩ | ⟨-, o, ho, hdays⟩
    · omega
    · have := hm.small o ho
      omega
  rw [hinstant]
  exact Or.inl ((Date.days_lt_days hc.date hd.valid.1).1 hlt)

/-- The seconds of the instant of a candidate with a time. -/
theorem instant_of_time {s : RuleSource} {offsets : List Int} (hz : s.zone.HasOffsets offsets)
    (hm : Zone.Moderate offsets) (hs : s.dateOnly = false) {c : Stamp} (hc : c.InReach) :
    ∃ o ∈ offsets,
      Moment.InCalendar (c.date.days * 86400 + (c.toMoment false).daytime - o) ∧
      s.instant c = .ofSeconds (c.date.days * 86400 + (c.toMoment false).daytime - o) := by
  have hcm := Stamp.toMoment_inReach hc false
  have hdaytime := Moment.daytime_bounds hcm.valid
  obtain ⟨o, ho, hinstant⟩ := Zone.localToUtc_of_time hz hcm rfl
  have hsmall := hm.small o ho
  have hdate : (c.toMoment false).date = c.date := rfl
  simp only [Moment.daySeconds, hdate] at hdaytime hinstant
  refine ⟨o, ho, ?_, by rw [instant, hs, hinstant]⟩
  exact Moment.inCalendar_of_near hcm (by simp only [Moment.daySeconds, hdate]; omega)
    (by simp only [Moment.daySeconds, hdate]; omega)

/-- **A candidate before the day before a date gives an instant before the
date.** Only at the end of its day, and between two offsets a whole day apart,
it may give the very instant of the date. -/
theorem instant_of_lt_dayBefore {s : RuleSource} {offsets : List Int}
    (hz : s.zone.HasOffsets offsets) (hm : Zone.Moderate offsets) {c : Stamp} (hc : c.InReach)
    {d : Moment} (hd : d.InReach) (h : c < s.dayBefore d) :
    s.instant c < d ∨ (s.dateOnly = false ∧ d.hasTime = true ∧
      s.instant c = Zone.utc.localToUtc d ∧ (c.hour = 24 ∨ c.second = 60) ∧
      ∃ o ∈ offsets, ∃ o' ∈ offsets, o' - o = 86400) := by
  cases hs : s.dateOnly with
  | true => exact Or.inl (instant_lt_of_dateOnly hz hm hs hc hd h)
  | false =>
    have hdaytime := Moment.daytime_bounds hd.valid
    have hcdaytime := Moment.daytime_bounds (Stamp.toMoment_inReach hc false).valid
    obtain ⟨o, ho, hnear, hinstant⟩ := instant_of_time hz hm hs hc
    have hsmall := hm.small o ho
    simp only [Moment.daySeconds] at hdaytime hcdaytime
    rw [hinstant, Moment.ofSeconds_lt_iff hnear hd.valid]
    simp only [Moment.daySeconds]
    rcases days_of_lt_dayBefore hz hm hc hd h with ⟨-, hdays⟩ | ⟨ht, o', ho', hdays⟩
    · exact Or.inl (by omega)
    · have hclose := hm.close o ho o' ho'
      by_cases hlt : c.date.days * 86400 + (c.toMoment false).daytime - o <
          d.date.days * 86400 + d.daytime
      · exact Or.inl hlt
      · -- only the end of the day and a whole day between the offsets leave no room
        have hend : (c.toMoment false).daytime = Moment.daySeconds := by
          simp only [Moment.daySeconds]
          omega
        have hequal : c.date.days * 86400 + (c.toMoment false).daytime - o =
            d.date.days * 86400 + d.daytime := by
          simp only [Moment.daySeconds] at hend
          omega
        refine Or.inr ⟨trivial, ht, ?_, Stamp.daytime_eq hc.toIsValid hend, o, ho, o', ho', by omega⟩
        rw [Zone.utc_localToUtc hd ht, hequal]
        rfl

/-! ### Instants as dates to pass to -/

theorem instant_hasTime {s : RuleSource} (c : Stamp) (hs : s.dateOnly = true) :
    (s.instant c).hasTime = false := by
  rw [instant, hs, Zone.localToUtc_of_date rfl]
  rfl

/-- A date stands before its instant, and no instant of a rule lies between. -/
theorem le_utc_localToUtc {s : RuleSource} {offsets : List Int}
    (hz : s.zone.HasOffsets offsets) (hm : Zone.Moderate offsets) {d : Moment} (hd : d.InReach)
    (hkind : d.hasTime = true → s.dateOnly = false) :
    d ≤ Zone.utc.localToUtc d ∧
      ∀ c : Stamp, c.InReach → d ≤ s.instant c → Zone.utc.localToUtc d ≤ s.instant c := by
  cases ht : d.hasTime with
  | false =>
    rw [Zone.localToUtc_of_date ht]
    exact ⟨le_refl d, fun _ _ h => h⟩
  | true =>
    have hdaytime := Moment.daytime_bounds hd.valid
    have hnear : Moment.InCalendar (d.date.days * Moment.daySeconds + d.daytime) :=
      Moment.inCalendar_of_near hd (by simp only [Moment.daySeconds] at *; omega)
        (by simp only [Moment.daySeconds] at *; omega)
    rw [Zone.utc_localToUtc hd ht]
    constructor
    · rw [← not_lt, Moment.ofSeconds_lt_iff hnear hd.valid]
      exact lt_irrefl _
    · intro c hc h
      obtain ⟨o, -, hu, hinstant⟩ := instant_of_time hz hm (hkind ht) hc
      rw [hinstant, ← not_lt, Moment.ofSeconds_lt_iff hu hd.valid] at h
      rw [hinstant, Moment.ofSeconds_le_iff]
      exact not_lt.1 h

/-! ### Dropping candidates -/

theorem mem_of_suffix_of_lt {l l₀ : List Stamp} (hl₀ : l₀.Pairwise (· < ·)) (hsuffix : l <:+ l₀)
    {a b : Stamp} (ha : a ∈ l) (hb : b ∈ l₀) (hab : a < b) : b ∈ l := by
  obtain ⟨before, rfl⟩ := hsuffix
  rcases List.mem_append.1 hb with hb | hb
  · exact absurd hab ((List.pairwise_append.1 hl₀).2.2 b hb a ha).not_gt
  · exact hb

/-- **Dropping candidates leaves the instants from a date on**, as long as no
candidate that is dropped gives a later instant than `v`, the first that the
date can be, and `v` itself is still reached by one that is not dropped. -/
theorem emitted_prune {s : RuleSource} (hcount : s.remaining = none) {l l₀ : List Stamp}
    (hl₀ : l₀.Pairwise (· < ·)) (hsuffix : l <:+ l₀) (cut : Stamp) (d v : Moment)
    (hcut : ∀ x ∈ l₀, x < cut → s.instant x < d ∨
      (s.instant x = v ∧ ∀ c ∈ l₀, d ≤ s.instant c → v ≤ s.instant c))
    (hreach : v ∈ s.emitted l → (∃ x ∈ l₀, x < cut ∧ ¬ s.instant x < d) →
      ∃ c ∈ l₀, cut ≤ c ∧ s.isPast (c.toMoment s.dateOnly) = false ∧
      s.instant c = v ∧ ∀ x ∈ l₀, cut ≤ x → x < c → s.instant x < v) :
    (s.emitted (l.filter (cut ≤ ·))).dropWhile (· < d) = (s.emitted l).dropWhile (· < d) := by
  have hl := hl₀.sublist hsuffix.sublist
  have hl' := hl.filter (cut ≤ ·)
  have hasc := (pairwise_emitted s l).1
  have hasc' := (pairwise_emitted s (l.filter (cut ≤ ·))).1
  refine AscendingList.eq_of_mem_iff (hasc'.sublist (List.dropWhile_sublist _))
    (hasc.sublist (List.dropWhile_sublist _)) fun m => ?_
  rw [AscendingList.mem_dropWhile_lt hasc', AscendingList.mem_dropWhile_lt hasc]
  refine and_congr_left fun hdm => ?_
  constructor
  · intro hm
    obtain ⟨c, hc, hwithin, rfl, hnew, hbefore⟩ := (mem_emitted hcount hl' m).1 hm
    obtain ⟨hc, hcutc⟩ := List.mem_filter.1 hc
    refine mem_emitted_of_le hcount hl hc hwithin hnew fun x hx hlt => ?_
    by_cases hxcut : cut ≤ x
    · exact (hbefore x (List.mem_filter.2 ⟨hx, by simpa using hxcut⟩) hlt).le
    · rcases hcut x (hsuffix.subset hx) (not_le.1 hxcut) with h | ⟨h, hall⟩
      · exact (h.trans_le hdm).le
      · rw [h]
        exact hall c (hsuffix.subset hc) hdm
  · intro hm
    obtain ⟨c, hc, hwithin, rfl, hnew, hbefore⟩ := (mem_emitted hcount hl m).1 hm
    by_cases hcutc : cut ≤ c
    · exact (mem_emitted hcount hl' _).2 ⟨c, List.mem_filter.2 ⟨hc, by simpa using hcutc⟩,
        hwithin, rfl, hnew, fun x hx => hbefore x (List.mem_filter.1 hx).1⟩
    · -- the candidate is dropped, so its instant is the date and is reached from behind
      have hc₀ := hsuffix.subset hc
      rcases hcut c hc₀ (not_le.1 hcutc) with h | ⟨h, -⟩
      · exact absurd hdm (not_le.2 h)
      · rw [h] at hm hdm hnew ⊢
        obtain ⟨c', hc', hcutc', hwithin', rfl, hbefore'⟩ :=
          hreach hm ⟨c, hc₀, not_le.1 hcutc, by rw [h]; exact not_lt.2 hdm⟩
        have hc'l := mem_of_suffix_of_lt hl₀ hsuffix hc hc' ((not_le.1 hcutc).trans_le hcutc')
        refine (mem_emitted hcount hl' _).2 ⟨c', List.mem_filter.2 ⟨hc'l, by simpa using hcutc'⟩,
          hwithin', rfl, hnew, fun x hx hlt => ?_⟩
        obtain ⟨hx, hxcut⟩ := List.mem_filter.1 hx
        exact hbefore' x (hsuffix.subset hx) (by simpa using hxcut) hlt

/-! ### A source among its candidates -/

/-- Whether a source stands before a part of the candidates of an expansion and
has the given instants to come. -/
def Stands (s₀ : RuleSource) (l₀ : List Stamp) (s : RuleSource) (ms : List Moment) : Prop :=
  ∃ l, s.candidates.Lists l ∧ l <:+ l₀ ∧ s.emitted l = ms ∧ SameRule s₀ s

theorem yields_stands (s₀ : RuleSource) (l₀ : List Stamp) : Cursor.Yields (Stands s₀ l₀) where
  nil := by
    rintro s ⟨l, hl, -, hms, -⟩
    exact (produceFrom_emitted hl rfl).1 hms
  cons := by
    rintro s m ms ⟨l, hl, hsuffix, hms, hsame⟩
    obtain ⟨s', l', hs', hl', hsuffix', hms', hsame'⟩ := (produceFrom_emitted hl rfl).2 m ms hms
    exact ⟨s', hs', l', hl', hsuffix'.trans hsuffix, hms', hsame.trans hsame'⟩

theorem skip_none {s : RuleSource} (h : s.produce = none) (d : Moment) : s.skip d = .ended := by
  unfold skip
  split
  · rfl
  · rename_i heq
    rw [h] at heq
    exact absurd heq (by simp)

theorem skip_some {s s' : RuleSource} {m : Moment} (h : s.produce = some (m, s')) (d : Moment) :
    s.skip d = if m < d then s'.skip d else .holding m s' := by
  conv => lhs; unfold skip
  split
  · rename_i heq
    rw [h] at heq
    exact absurd heq (by simp)
  · rename_i heq
    rw [h] at heq
    obtain ⟨rfl, rfl⟩ := Prod.mk.inj (Option.some.inj heq)
    rfl

/-- Skipping passes over the instants before a date. -/
theorem skip_stands {s₀ s : RuleSource} {l₀ : List Stamp} {ms : List Moment}
    (h : Stands s₀ l₀ s ms) (d : Moment) :
    Cursor.OfSource (Stands s₀ l₀) (s.skip d) (ms.dropWhile (· < d)) := by
  induction ms generalizing s with
  | nil =>
    rw [skip_none ((yields_stands s₀ l₀).nil h)]
    rfl
  | cons m ms ih =>
    obtain ⟨s', hs', hrest⟩ := (yields_stands s₀ l₀).cons h
    rw [skip_some hs']
    split
    · rename_i hlt
      rw [List.dropWhile_cons_of_pos (by simpa using hlt)]
      exact ih hrest
    · rename_i hge
      rw [List.dropWhile_cons_of_neg (by simpa using hge)]
      exact ⟨ms, rfl, hrest⟩

/-- Whether neither a count nor positions keep a source from dropping
candidates. -/
def Prunes (s : RuleSource) : Prop :=
  s.remaining = none ∧ s.candidates.isSelective = false

theorem SameRule.prunes_iff {s s' : RuleSource} (h : SameRule s s') : s'.Prunes ↔ s.Prunes := by
  have hcounted := h.counted
  rw [Prunes, Prunes, h.selective, ← Option.isNone_iff_eq_none, ← Option.isNone_iff_eq_none,
    ← Option.not_isSome, ← Option.not_isSome, hcounted]

theorem prune_of {s : RuleSource} (h : s.Prunes) (d : Moment) : s.prune d =
    { s with candidates := s.candidates.raiseThreshold (s.dayBefore d) } := by
  rw [prune, if_pos (by simp [h.1, h.2])]
  rfl

theorem prune_of_not {s : RuleSource} (h : ¬ s.Prunes) (d : Moment) : s.prune d = s := by
  rw [prune, if_neg]
  intro h'
  rw [Bool.and_eq_true, Option.isNone_iff_eq_none, Bool.not_eq_true'] at h'
  exact h h'

/-- Dropping candidates before a date leaves a source before the others. -/
theorem prune_stands {s₀ s : RuleSource} {l₀ l : List Stamp} (hl₀ : l₀.Pairwise (· < ·))
    (hl : s.candidates.Lists l) (hsuffix : l <:+ l₀) (hsame : SameRule s₀ s) (h : s.Prunes)
    (d : Moment) : Stands s₀ l₀ (s.prune d) (s.emitted (l.filter (s.dayBefore d ≤ ·))) := by
  rw [prune_of h]
  refine ⟨_, hl.raiseThreshold h.2 (s.dayBefore d), ?_, emitted_candidates s _ _, hsame.zone,
    hsame.dateOnly, hsame.start, hsame.bound, hsame.counted, hsame.selective⟩
  rw [← AscendingList.dropWhile_lt (hl₀.sublist hsuffix.sublist)]
  exact (List.dropWhile_suffix _).trans hsuffix

/-! ### Instants that are still reached -/

/-- Whether a stamp is among the candidates of a source. -/
def IsCandidate (s : RuleSource) (c : Stamp) : Prop :=
  ∃ n, s.candidates.nth n = some c

theorem isCandidate_iff {s : RuleSource} {l : List Stamp} (h : s.candidates.Lists l) (c : Stamp) :
    s.IsCandidate c ↔ c ∈ l := by
  rw [IsCandidate, List.mem_iff_getElem?]
  exact exists_congr fun n => by rw [h.nth n]

/-- Whether a date is an instant that is reached from the day before it: among
the candidates from there on, the first whose instant is not before it gives
it, within the bound. -/
def Reaches (s : RuleSource) (d : Moment) : Prop :=
  ∃ c, s.IsCandidate c ∧ s.dayBefore d ≤ c ∧ s.isPast (c.toMoment s.dateOnly) = false ∧
    s.instant c = Zone.utc.localToUtc d ∧
    ∀ x, s.IsCandidate x → s.dayBefore d ≤ x → x < c → s.instant x < Zone.utc.localToUtc d

/-- Whether the candidates that are dropped for a date give no later instant,
and none that it is not known to be reached. -/
structure DropsSafely (s : RuleSource) (l : List Stamp) (d : Moment) : Prop where
  before : ∀ x ∈ l, x < s.dayBefore d → s.instant x < d ∨
    (s.instant x = Zone.utc.localToUtc d ∧
      ∀ c ∈ l, d ≤ s.instant c → Zone.utc.localToUtc d ≤ s.instant c)
  reached : Zone.utc.localToUtc d ∈ s.emitted l →
    (∃ x ∈ l, x < s.dayBefore d ∧ ¬ s.instant x < d) → s.Reaches d

theorem SameRule.dayBefore_eq {s s' : RuleSource} (h : SameRule s s') (d : Moment) :
    s'.dayBefore d = s.dayBefore d := by
  rw [dayBefore, dayBefore, h.zone]

theorem SameRule.instant_eq {s s' : RuleSource} (h : SameRule s s') (c : Stamp) :
    s'.instant c = s.instant c := by
  rw [instant, instant, h.zone, h.dateOnly]

/-- A source that drops candidates safely passes to a date among its instants. -/
theorem seek_stands {s₀ s : RuleSource} {l₀ : List Stamp} (hlists : s₀.candidates.Lists l₀)
    (hl₀ : l₀.Pairwise (· < ·)) {d : Moment} (hsafe : s₀.Prunes → s₀.DropsSafely l₀ d)
    {ms : List Moment} (h : Stands s₀ l₀ s ms) (hms : ∀ m ∈ ms, m ∈ s₀.emitted l₀) :
    Cursor.OfSource (Stands s₀ l₀) (s.seek d) (ms.dropWhile (· < d)) := by
  unfold seek
  by_cases hprunes : s.Prunes
  · obtain ⟨l, hl, hsuffix, rfl, hsame⟩ := h
    obtain ⟨hbefore, hreached⟩ := hsafe (hsame.prunes_iff.1 hprunes)
    have hcut := hsame.dayBefore_eq d
    have hequal := emitted_prune hprunes.1 hl₀ hsuffix (s.dayBefore d) d (Zone.utc.localToUtc d)
      (by simpa only [hsame.instant_eq, hcut] using hbefore)
      (by
        intro hv hdropped
        simp only [hsame.instant_eq, hcut] at hdropped ⊢
        obtain ⟨c, hc, hcutc, hwithin, hinstant, hfirst⟩ := hreached (hms _ hv) hdropped
        simp only [isCandidate_iff hlists] at hc hfirst
        refine ⟨c, hc, hcutc, ?_, hinstant, hfirst⟩
        rw [isPast, hsame.bound, hsame.dateOnly]
        exact hwithin)
    rw [← hequal]
    exact skip_stands (prune_stands hl₀ hl hsuffix hsame hprunes d) d
  · rw [prune_of_not hprunes]
    exact skip_stands h d

/-- **A source that drops candidates safely is a cursor over its instants.** -/
theorem follows_emitted {P : Moment → Prop} {s₀ : RuleSource} {l₀ : List Stamp}
    (hlists : s₀.candidates.Lists l₀) (hl₀ : l₀.Pairwise (· < ·))
    (hsafe : s₀.Prunes → ∀ d, P d → s₀.DropsSafely l₀ d) :
    (Cursor.idle s₀).Follows P (s₀.emitted l₀) := by
  have hyields := (yields_stands s₀ l₀).and_mem (· ∈ s₀.emitted l₀)
  refine Cursor.follows_of_source ⟨hyields, ?_⟩
    ⟨⟨l₀, hlists, List.suffix_rfl, rfl, SameRule.refl s₀⟩, fun _ hm => hm⟩
  intro s ms d h hd
  have hseek := seek_stands hlists hl₀ (fun hprunes => hsafe hprunes d hd) h.1 h.2
  exact hseek.and_mem fun m hm => h.2 m ((List.dropWhile_sublist _).subset hm)

variable {s : RuleSource} {l : List Stamp} {offsets : List Int} {d : Moment}

/-- Candidates within reach are dropped safely for a date that is still reached
whenever one of them gives it. -/
theorem dropsSafely_of_reaches (hz : s.zone.HasOffsets offsets) (hm : Zone.Moderate offsets)
    (hin : ∀ c ∈ l, c.InReach) (hd : d.InReach)
    (hreached : Zone.utc.localToUtc d ∈ s.emitted l →
      (∃ x ∈ l, x < s.dayBefore d ∧ ¬ s.instant x < d) → s.Reaches d) :
    s.DropsSafely l d := by
  refine ⟨fun x hx hlt => ?_, hreached⟩
  rcases instant_of_lt_dayBefore hz hm (hin x hx) hd hlt with h | ⟨hkind, -, h, -⟩
  · exact Or.inl h
  · have hle := le_utc_localToUtc hz hm hd fun _ => hkind
    exact Or.inr ⟨h, fun c hc => hle.2 c (hin c hc)⟩

/-- A cursor that passes to a date as its list does has reached it from the day
before, if the list holds the date. -/
theorem reaches_of_follows {P : Moment → Prop} (hz : s.zone.HasOffsets offsets)
    (hm : Zone.Moderate offsets) (hlists : s.candidates.Lists l) (hl : l.Pairwise (· < ·))
    (hin : ∀ c ∈ l, c.InReach) (hprunes : s.Prunes) (hd : P d) (hreach : d.InReach)
    (hfollows : (Cursor.idle s).Follows P (s.emitted l))
    (hv : Zone.utc.localToUtc d ∈ s.emitted l) : s.Reaches d := by
  have hkind : d.hasTime = true → s.dateOnly = false := by
    intro ht
    by_contra hdate
    rw [Bool.not_eq_false] at hdate
    obtain ⟨c, -, -, hinstant, -⟩ := (mem_emitted hprunes.1 hl _).1 hv
    have hnone := instant_hasTime c hdate
    rw [hinstant, Zone.utc_localToUtc hreach ht] at hnone
    exact absurd hnone (by simp [Moment.hasTime, Moment.ofSeconds])
  obtain ⟨hdv, hfirst⟩ := le_utc_localToUtc hz hm hreach hkind
  have hmin : ∀ m ∈ s.emitted l, d ≤ m → Zone.utc.localToUtc d ≤ m := by
    intro m hmem hdm
    obtain ⟨c, hc, -, rfl, -⟩ := (mem_emitted hprunes.1 hl m).1 hmem
    exact hfirst c (hin c hc) hdm
  have hasc := (pairwise_emitted s l).1
  have hl' := hl.filter (s.dayBefore d ≤ ·)
  have hskip : Cursor.OfSource (Stands s l) ((Cursor.idle s).advanceTo d) _ :=
    skip_stands (prune_stands hl hlists List.suffix_rfl (SameRule.refl s) hprunes d) d
  have hheld := ((yields_stands s l).fill hskip).1
  rw [(hfollows.advanceTo hd).held] at hheld
  -- the date is the first of the list's moments that are not before it
  have hmem := AscendingList.mem_dropWhile_lt hasc d
  rw [AscendingList.head?_of_least (hasc.sublist (List.dropWhile_sublist _))
    ((hmem _).2 ⟨hv, hdv⟩) fun m hm => hmin m ((hmem m).1 hm).1 ((hmem m).1 hm).2] at hheld
  obtain ⟨rest, hrest⟩ := List.head?_eq_some_iff.1 hheld.symm
  have hpruned : Zone.utc.localToUtc d ∈ s.emitted (l.filter (s.dayBefore d ≤ ·)) :=
    (List.dropWhile_sublist _).subset (hrest ▸ List.mem_cons_self)
  obtain ⟨c, hc, hwithin, hinstant, -, hbefore⟩ := (mem_emitted hprunes.1 hl' _).1 hpruned
  obtain ⟨hc, hcut⟩ := List.mem_filter.1 hc
  refine ⟨c, (isCandidate_iff hlists c).2 hc, by simpa using hcut, hwithin, hinstant, ?_⟩
  intro x hx hxcut hlt
  exact hbefore x (List.mem_filter.2 ⟨(isCandidate_iff hlists x).1 hx, by simpa using hxcut⟩) hlt

end RuleSource

end Recurrence
