/-
# Selection by position

Positions pick from whole periods. The candidates ascend, so the candidates of
one period stand together, and gathering them by their common beginning finds
all of them: what is picked with one period number is what the positions pick
from all candidates of that number. In the first period this counts the
candidates before the start as well, since the walk begins with the period.

Key theorems: `filter_selectByPeriod`, `Rule.positions_selected`.
-/
import Recurrence.Proofs.Expansion.Candidates

namespace Recurrence

open Calendar

/-! ### Periods of an ascending list -/

variable {κ : Type} [LinearOrder κ] {key : Stamp → κ}

/-- In a list whose keys ascend those with the key of the first stand in
front. -/
theorem takeWhile_period {s : Stamp} {rest : List Stamp} {p : Stamp → Bool}
    (hp : ∀ t ∈ rest, p t = decide (key t = key s))
    (h : (s :: rest).Pairwise fun a b => key a ≤ key b) :
    rest.takeWhile p = rest.filter (fun t => key t = key s) ∧
      ∀ t ∈ rest.dropWhile p, key t ≠ key s := by
  induction rest with
  | nil => simp
  | cons t rest ih =>
    obtain ⟨hs, ht⟩ := List.pairwise_cons.1 h
    obtain ⟨ht, hrest⟩ := List.pairwise_cons.1 ht
    have hpt := hp t List.mem_cons_self
    by_cases heq : key t = key s
    · obtain ⟨htake, hdrop⟩ := ih (fun a ha => hp a (List.mem_cons_of_mem _ ha))
        (List.pairwise_cons.2 ⟨fun a ha => hs a (List.mem_cons_of_mem _ ha), hrest⟩)
      rw [List.takeWhile_cons_of_pos (by simp [hpt, heq]),
        List.dropWhile_cons_of_pos (by simp [hpt, heq]),
        List.filter_cons_of_pos (by simpa using heq), htake]
      exact ⟨rfl, hdrop⟩
    · have hlt : key s < key t := lt_of_le_of_ne (hs t List.mem_cons_self) (Ne.symm heq)
      have hne : ∀ a ∈ t :: rest, key a ≠ key s := by
        intro a ha
        rcases List.mem_cons.1 ha with rfl | ha
        · exact heq
        · exact (hlt.trans_le (ht a ha)).ne'
      rw [List.takeWhile_cons_of_neg (by simp [hpt, heq]),
        List.dropWhile_cons_of_neg (by simp [hpt, heq])]
      exact ⟨(List.filter_eq_nil_iff.2 fun a ha => by simpa using hne a ha).symm, hne⟩

/-- **The positions pick from all candidates of a period.** -/
theorem filter_selectByPeriod (positions : List Int) (frequency : Frequency)
    (weekStart : Weekday) {l : List Stamp}
    (hkey : ∀ s ∈ l, ∀ t ∈ l, s.samePeriod frequency weekStart t = decide (key t = key s))
    (hl : l.Pairwise fun a b => key a ≤ key b) (k : κ) :
    (selectByPeriod positions frequency weekStart l).filter (fun t => key t = k) =
      atPositions positions (l.filter fun t => key t = k) := by
  fun_induction selectByPeriod positions frequency weekStart l with
  | case1 => rfl
  | case2 s rest ih =>
    have hsub := List.dropWhile_sublist (s.samePeriod frequency weekStart) (l := rest)
    have hrec := ih
      (fun a ha b hb => hkey a (List.mem_cons_of_mem _ (hsub.subset ha)) b
        (List.mem_cons_of_mem _ (hsub.subset hb)))
      ((List.pairwise_cons.1 hl).2.sublist hsub)
    obtain ⟨htake, hlater⟩ := takeWhile_period
      (fun t ht => hkey s List.mem_cons_self t (List.mem_cons_of_mem _ ht)) hl
    have hmembers : s :: rest.takeWhile (s.samePeriod frequency weekStart) =
        (s :: rest).filter fun t => key t = key s := by
      rw [htake, List.filter_cons_of_pos (by simp)]
    have hpicked : ∀ t ∈ atPositions positions
        (s :: rest.takeWhile (s.samePeriod frequency weekStart)), key t = key s := by
      intro t ht
      have hmem := (atPositions_sublist positions _).subset ht
      rw [hmembers, List.mem_filter] at hmem
      simpa using hmem.2
    rw [List.filter_append, hrec]
    by_cases hk : key s = k
    · subst hk
      -- the first period is all that the number is found in
      have hnone : (rest.dropWhile (s.samePeriod frequency weekStart)).filter
          (fun t => key t = key s) = [] :=
        List.filter_eq_nil_iff.2 fun t ht => by simpa using hlater t ht
      rw [hnone, List.filter_eq_self.2 (fun t ht => by simpa using hpicked t ht), hmembers]
      simp [atPositions]
    · have hnone : (atPositions positions
          (s :: rest.takeWhile (s.samePeriod frequency weekStart))).filter
          (fun t => key t = k) = [] :=
        List.filter_eq_nil_iff.2 fun t ht => by simpa [hpicked t ht] using hk
      have hrest : (s :: rest).filter (fun t => key t = k) =
          (rest.dropWhile (s.samePeriod frequency weekStart)).filter (fun t => key t = k) := by
        rw [List.filter_cons_of_neg (by simpa using hk)]
        conv => lhs; rw [← List.takeWhile_append_dropWhile (p := s.samePeriod frequency weekStart)
          (l := rest)]
        rw [List.filter_append, htake, List.filter_filter]
        rw [List.filter_eq_nil_iff.2 (fun t _ => by simpa using fun h h' => hk (h'.symm.trans h)),
          List.nil_append]
      rw [hnone, List.nil_append, hrest]

/-! ### Rules with positions -/

namespace Rule

variable {rule : Rule} {start : Moment} {limits : Limits}

/-- Every stamp that the walk stands for exists and lies well inside the
calendar. -/
theorem occurs_of_mem_pending (hr : rule.InRange) (hsec : ∀ n ∈ rule.bySecond, n ≤ 59)
    (hstart : rule.StartsAt start) (hlast : limits.maxYear ≤ 9999) {b : Stamp}
    (hb : b ∈ (rule.candidates start limits).cascade.pending) :
    b.Occurs ∧ firstDay + 6 ≤ b.date.days := by
  obtain ⟨hselects, hle, -⟩ := (mem_pending_iff hr hsec hstart hlast b).1 hb
  have hthreshold := threshold_year rule hstart.occurs.date
  have hstartYear : 1 ≤ (Stamp.ofMoment start).year := hstart.year.1
  have hyear := Stamp.year_le_of_le hle
  refine ⟨hselects.occurs, Date.firstDay_add_le hselects.occurs.date ?_⟩
  simp only [Stamp.date]
  omega

/-- The walk stands for whole periods one after the other, which their numbers
tell apart. -/
theorem periods_pending (hr : rule.InRange) (hsec : ∀ n ∈ rule.bySecond, n ≤ 59)
    (hstart : rule.StartsAt start) (hlast : limits.maxYear ≤ 9999) :
    let index (b : Stamp) : Int := b.periodIndex rule.frequency rule.firstWeekday
    let l := (rule.candidates start limits).cascade.pending
    (l.Pairwise fun a b => index a ≤ index b) ∧ ∀ s ∈ l, ∀ t ∈ l,
      s.samePeriod rule.frequency rule.firstWeekday t = decide (index t = index s) := by
  intro index l
  have hoccurs : ∀ b ∈ l, b.Occurs ∧ firstDay + 6 ≤ b.date.days := fun b hb =>
    occurs_of_mem_pending hr hsec hstart hlast hb
  constructor
  · refine (pairwise_pending rule start limits).imp_of_mem fun ha hb h => ?_
    exact Stamp.periodIndex_mono (hoccurs _ ha).1 (hoccurs _ hb).1 h.le _ _
  · intro s hs t ht
    exact decide_eq_decide.2 (Stamp.periodStart_eq_iff (hoccurs t ht).1 (hoccurs s hs).1
      (hoccurs t ht).2 (hoccurs s hs).2 _ _)

/-- With positions the threshold is the beginning of the start's period. -/
theorem threshold_le_iff (hpos : rule.bySetPos ≠ []) (hstart : rule.StartsAt start) {b : Stamp}
    (hb : b.Occurs) : rule.threshold (.ofMoment start) ≤ b ↔
      (Stamp.ofMoment start).periodIndex rule.frequency rule.firstWeekday ≤
        b.periodIndex rule.frequency rule.firstWeekday := by
  have hdays := Date.firstDay_add_le hstart.occurs.date
    (show 0 ≤ start.date.year by have := hstart.year; omega)
  rw [threshold, if_neg hpos]
  exact Stamp.periodStart_le_iff hstart.occurs hb hdays _ _

/-- **Positions select over whole periods.** Call by call a rule with positions
hands out ascending candidates, period by period. Those of a period at or after
the start's, which lies within the last year, are the ones at the positions of
the ascending list of all that the rule selects in that period, counted from 1
or from the end. -/
theorem positions_selected (hr : rule.InRange) (hsec : ∀ n ∈ rule.bySecond, n ≤ 59)
    (hpos : rule.bySetPos ≠ []) (hstart : rule.StartsAt start)
    (hlimits : limits.AmpleFrom start.date.year) :
    let index (b : Stamp) : Int := b.periodIndex rule.frequency rule.firstWeekday
    ∃ out : List Stamp, (∀ n, (rule.candidates start limits).nth n = out[n]?) ∧
      out.Pairwise (· < ·) ∧ out.Pairwise (fun a b => index a ≤ index b) ∧
      ∀ k, index (.ofMoment start) ≤ k →
        (∀ b : Stamp, b.Occurs → index b = k → b.year ≤ limits.maxYear) →
        ∃ period : List Stamp, period.Pairwise (· < ·) ∧
          (∀ b, b ∈ period ↔
            rule.Selects (.ofMoment start) (!start.hasTime) b ∧ index b = k) ∧
          ∀ b, b ∈ out ∧ index b = k ↔ ∃ i : Nat, period[i]? = some b ∧
            ∃ p ∈ rule.bySetPos, p = i + 1 ∨ p = i - period.length := by
  intro index
  have hmem := mem_pending_iff hr hsec hstart hlimits.last
  have hlists := lists_handedOut rule hstart.date hlimits.patience
  have hasc := pairwise_pending rule start limits
  obtain ⟨hmono, hkey⟩ := periods_pending hr hsec hstart hlimits.last
  rw [handedOut, if_neg hpos] at hlists
  generalize (rule.candidates start limits).cascade.pending = l at *
  have hsub := selectByPeriod_sublist rule.bySetPos rule.frequency rule.firstWeekday l
  refine ⟨_, hlists.nth, hasc.sublist hsub, hmono.sublist hsub, fun k hk hlast =>
    ⟨l.filter fun b => index b = k, hasc.filter _, fun b => ?_, fun b => ?_⟩⟩
  · rw [List.mem_filter, hmem, decide_eq_true_eq]
    constructor
    · rintro ⟨⟨hselects, -⟩, hb⟩
      exact ⟨hselects, hb⟩
    · rintro ⟨hselects, hb⟩
      have hle := (threshold_le_iff hpos hstart hselects.occurs).2 (hk.trans hb.ge)
      exact ⟨⟨hselects, hle, hlast b hselects.occurs hb⟩, hb⟩
  · rw [← mem_atPositions,
      ← filter_selectByPeriod rule.bySetPos rule.frequency rule.firstWeekday hkey hmono k,
      List.mem_filter, decide_eq_true_eq]

/-- The last working day of every month. -/
def lastWorkdays : Rule :=
  { every .monthly with
    byDay := [.every .monday, .every .tuesday, .every .wednesday, .every .thursday, .every .friday]
    bySetPos := [-1, 40] }

theorem positions_selected_lastWorkdays :
    let start : Stamp := ⟨2006, 1, 17, 12, 0, 0⟩
    let index (b : Stamp) : Int := b.periodIndex .monthly .monday
    ∃ out : List Stamp,
      (∀ n, (lastWorkdays.candidates (.atTime 2006 1 17 12 0 0) ⟨3, 2006⟩).nth n = out[n]?) ∧
      out.Pairwise (· < ·) ∧ out.Pairwise (fun a b => index a ≤ index b) ∧
      ∀ k, index start ≤ k → (∀ b : Stamp, b.Occurs → index b = k → b.year ≤ 2006) →
        ∃ period : List Stamp, period.Pairwise (· < ·) ∧
          (∀ b, b ∈ period ↔ lastWorkdays.Selects start false b ∧ index b = k) ∧
          ∀ b, b ∈ out ∧ index b = k ↔ ∃ i : Nat, period[i]? = some b ∧
            ∃ p ∈ lastWorkdays.bySetPos, p = i + 1 ∨ p = i - period.length :=
  positions_selected (by constructor <;> simp [lastWorkdays, every, OrdinalWeekday.every])
    (by simp [lastWorkdays, every]) (by decide) ⟨by decide, by decide, by decide, by decide⟩
    ⟨by decide, by decide⟩

end Rule

end Recurrence
