/-
# One moment for each instant

A set merges and excludes moments as they are spelled. Its start and the instants
of its rules are converted, and so are the dates of its lists that are not marked
as UTC; of moments that were converted, each instant has one. So an instant comes
once, and not at all if it is excluded, as long as neither spelling carries and
stands in the text with the mark of UTC. Such a moment is kept as it is: it comes
beside the usual spelling of its instant, and does not exclude it.

Key definitions: `Union.Gives`, `Union.Bars`.
Key theorems: `Union.not_mem_moments`, `RecurrenceSet.settled_or_marked`,
`RecurrenceSet.moments_sameInstant`, `RecurrenceSet.moments_sameInstant_marked`.
-/
import Recurrence.Proofs.Moment.Spelling
import Recurrence.Proofs.Set.Lines
import Recurrence.Proofs.Source.Rising

namespace Recurrence

/-! ### What an exclusion bars -/

namespace Union

variable {σ : Type} [Source σ] {x : Moment}

/-- Whether a cursor follows an ascending list in which a moment is still to
come. -/
def Gives (x : Moment) (c : Cursor σ) : Prop :=
  ∃ l, c.Follows (fun _ => True) l ∧ l.Pairwise (· < ·) ∧ x ∈ l

/-- Moved up to a moment, a cursor still gives all later ones, and first the
moment itself. -/
theorem Gives.moved {c : Cursor σ} (h : Gives x c) {m : Moment} (hm : m ≤ x) :
    Gives x (c.advanceTo m).fill ∧ (m = x → (c.advanceTo m).peek.1 = some m) := by
  obtain ⟨l, hfollows, hasc, hx⟩ := h
  have hadvance := hfollows.advanceTo (d := m) trivial
  refine ⟨⟨_, hadvance.fill, hasc.sublist (List.dropWhile_sublist _),
    (AscendingList.mem_dropWhile_lt hasc m x).2 ⟨hx, hm⟩⟩, ?_⟩
  rintro rfl
  exact hadvance.held.trans ((head_dropWhile_lt hasc m).2 hx)

theorem gives_hasMoment {m : Moment} (hm : m ≤ x) {cs : List (Cursor σ)}
    (h : ∃ c ∈ cs, Gives x c) :
    (∃ c ∈ (hasMoment m cs).2, Gives x c) ∧ (m = x → (hasMoment m cs).1 = true) := by
  induction cs with
  | nil => exact absurd h (by simp)
  | cons c cs ih =>
    simp only [hasMoment]
    rw [List.exists_mem_cons_iff] at h
    by_cases hfound : (c.advanceTo m).peek.1 = some m
    · rw [if_pos hfound, List.exists_mem_cons_iff]
      exact ⟨h.imp_left fun hc => (hc.moved hm).1, fun _ => rfl⟩
    · rw [if_neg hfound, List.exists_mem_cons_iff]
      rcases h with hc | hcs
      · exact ⟨Or.inl (hc.moved hm).1, fun he => absurd ((hc.moved hm).2 he) hfound⟩
      · exact ⟨Or.inr (ih hcs).1, (ih hcs).2⟩

/-- Whether a moment is passed, or some exclusion is still to give it. -/
def Bars (x : Moment) (exclusions : List (Cursor σ)) (last : Option Moment) : Prop :=
  (∃ before ∈ last, x ≤ before) ∨ ∃ c ∈ exclusions, Gives x c

/-- Testing a moment leaves what is barred so, and finds it when it is barred. -/
theorem Bars.test {exclusions : List (Cursor σ)} {last : Option Moment} (h : Bars x exclusions last)
    {m : Moment} (hlast : ∀ before ∈ last, before < m) :
    Bars x (hasMoment m exclusions).2 (some m) ∧ (m = x → (hasMoment m exclusions).1 = true) := by
  by_cases hm : m ≤ x
  · have hgives : ∃ c ∈ exclusions, Gives x c := by
      refine h.resolve_left ?_
      rintro ⟨before, hbefore, hx⟩
      exact absurd ((hlast before hbefore).trans_le hm) (not_lt.2 hx)
    exact ⟨Or.inr (gives_hasMoment hm hgives).1, (gives_hasMoment hm hgives).2⟩
  · exact ⟨Or.inl ⟨m, rfl, (not_le.1 hm).le⟩, fun he => absurd he.le hm⟩

theorem Bars.produceFrom {inclusions exclusions : List (Cursor σ)} {last : Option Moment}
    (h : Bars x exclusions last) {m : Moment} {u : Union σ}
    (hstep : Union.produceFrom inclusions exclusions last = some (m, u)) :
    m ≠ x ∧ Bars x u.exclusions u.last := by
  fun_induction Union.produceFrom inclusions exclusions last with
  | case1 => simp at hstep
  | case2 inclusions exclusions last m' hleast inclusions' hlast ih => exact ih h hstep
  | case3 inclusions exclusions last m' hleast inclusions' hlast exclusions' hhas ih =>
    have htest := (h.test (m := m') fun before hb => by
      simpa [Option.mem_def.1 hb] using hlast).1
    rw [hhas] at htest
    exact ih htest hstep
  | case4 inclusions exclusions last m' hleast inclusions' hlast exclusions' hhas =>
    obtain ⟨rfl, rfl⟩ := Prod.mk.inj (Option.some.inj hstep)
    obtain ⟨hbars, hfound⟩ := h.test (m := m') fun before hb => by
      simpa [Option.mem_def.1 hb] using hlast
    rw [hhas] at hbars hfound
    exact ⟨fun he => absurd (hfound he) (by simp), hbars⟩

/-- **What an exclusion is to give does not come.** -/
theorem not_mem_moments {u : Union σ} (h : Bars x u.exclusions u.last) : x ∉ Source.moments u := by
  induction hn : Source.size u using Nat.strong_induction_on generalizing u with
  | _ n ih =>
    cases hstep : Source.produce u with
    | none => simp [Source.moments_none hstep]
    | some p =>
      obtain ⟨hne, hrest⟩ := h.produceFrom (m := p.1) (u := p.2) hstep
      rw [Source.moments_some hstep, List.mem_cons, not_or]
      exact ⟨hne.symm, ih _ (hn ▸ Source.size_produce hstep) hrest rfl⟩

end Union

/-! ### The moments of a set -/

namespace RecurrenceSet

open Reading

variable {database : Database} {text : String} {start : Moment} {zone : Zone} {limits : Limits}
  {set : RecurrenceSet}

/-- A moment that a text lists was converted, or is marked as UTC there. -/
theorem settled_or_marked_of_listed {lines : List Line}
    (h : Line.readAllIn database text zone = .ok lines) {list : DateList} (hlist : .dates list ∈ lines) {m : Moment} (hm : m ∈ list.dates) :
    m.Settled ∨ Line.Writes text m true := by
  obtain ⟨zone', written, utc, hwritten, rfl⟩ := Line.exists_written h hlist hm
  cases utc with
  | false => exact Or.inl (Zone.settled_localToUtc zone' written)
  | true => exact Or.inr hwritten

theorem exists_lines_of_readIn (h : readIn database text start zone limits = .ok set) :
    ∃ lines, Line.readAllIn database text zone = .ok lines ∧
      set = withStart lines start zone limits := by
  obtain ⟨lines, hlines, heq⟩ := map_eq_ok.1 h
  exact ⟨lines, hlines, heq.symm⟩

/-- A set rises above what its moments have in common: they were converted, or the
text marks them as UTC. -/
theorem rises_of_readIn (h : readIn database text start zone limits = .ok set) :
    (Cursor.idle set).Rises fun m => m.Settled ∨ Line.Writes text m true := by
  obtain ⟨lines, hlines, rfl⟩ := exists_lines_of_readIn h
  apply Union.rises
  simp only [List.forall_mem_append, List.forall_mem_singleton, cursors, List.forall_mem_map,
    List.mem_filter]
  constructor
  · rintro (rule | list) ⟨hline, -⟩
    · exact Cursor.embeds_inl.rises
        (RuleSource.rises fun c _ => Or.inl (Zone.settled_localToUtc _ _))
    · obtain ⟨hasc, hmem⟩ := DateSource.ofList_spec list.dates
      exact Cursor.embeds_inr.rises
        (DateSource.rises hasc fun m hm => settled_or_marked_of_listed hlines hline ((hmem m).1 hm))
  · obtain ⟨hasc, hmem⟩ := DateSource.ofList_spec [zone.localToUtc start]
    refine Cursor.embeds_inr.rises (DateSource.rises hasc fun m hm => ?_)
    rw [List.mem_singleton.1 ((hmem m).1 hm)]
    exact Or.inl (Zone.settled_localToUtc zone start)

/-- The moments of a set were converted, or the text marks them as UTC. -/
theorem settled_or_marked (h : readIn database text start zone limits = .ok set) :
    ∀ m ∈ Source.moments set, m.Settled ∨ Line.Writes text m true :=
  (rises_of_readIn h).moments

/-- The dates that a line excludes do not come. -/
theorem not_mem_moments_of_excluded {lines : List Line} {list : DateList}
    (hlist : .dates list ∈ lines) (heffect : list.effect = .excludes) {x : Moment}
    (hx : x ∈ list.dates) : x ∉ Source.moments (withStart lines start zone limits) := by
  apply Union.not_mem_moments
  obtain ⟨hasc, hmem⟩ := DateSource.ofList_spec list.dates
  refine Or.inr ⟨.idle (.inr (.ofList list.dates)), ?_, _,
    Cursor.embeds_inr.follows (DateSource.follows _ _), hasc, (hmem x).2 hx⟩
  exact List.mem_map.2 ⟨.dates list, List.mem_filter.2 ⟨hlist, decide_eq_true heffect⟩, rfl⟩

/-- Two spellings of an instant are one, unless one of them carries and is marked
as UTC. -/
theorem eq_or_marked {v w : Moment} (hv : v.Settled ∨ Line.Writes text v true)
    (hw : w.Settled ∨ Line.Writes text w true) (h : v.SameInstant w) :
    v = w ∨ ∃ m, (m = v ∨ m = w) ∧ m.Carries ∧ Line.Writes text m true := by
  by_cases hv' : v.Settled
  · by_cases hw' : w.Settled
    · exact Or.inl (Moment.eq_of_sameInstant h hv' hw')
    · exact Or.inr ⟨w, Or.inr rfl, Moment.carries_of_not_settled hw', hw.resolve_left hw'⟩
  · exact Or.inr ⟨v, Or.inl rfl, Moment.carries_of_not_settled hv', hv.resolve_left hv'⟩

/-- **Each instant comes once, and not if it is excluded**, unless a text marks as
UTC a date-time that carries: two moments of a set that stand for one instant are
equal or one of them is such a date-time, and a moment of a set stands for the
instant of an excluded date only if one of the two is. -/
theorem moments_sameInstant (h : readIn database text start zone limits = .ok set) :
    (∀ v ∈ Source.moments set, ∀ w ∈ Source.moments set, v.SameInstant w →
      v = w ∨ ∃ m, (m = v ∨ m = w) ∧ m.Carries ∧ Line.Writes text m true) ∧
    ∃ lines, Line.readAllIn database text zone = .ok lines ∧
      ∀ list, .dates list ∈ lines → list.effect = .excludes → ∀ x ∈ list.dates,
        ∀ v ∈ Source.moments set, v.SameInstant x →
          ∃ m, (m = v ∨ m = x) ∧ m.Carries ∧ Line.Writes text m true := by
  have hsettled := settled_or_marked h
  obtain ⟨lines, hlines, rfl⟩ := exists_lines_of_readIn h
  refine ⟨fun v hv w hw hsame => eq_or_marked (hsettled v hv) (hsettled w hw) hsame,
    lines, hlines, fun list hlist heffect x hx v hv hsame => ?_⟩
  refine (eq_or_marked (hsettled v hv) (settled_or_marked_of_listed hlines hlist hx) hsame).resolve_left ?_
  rintro rfl
  exact not_mem_moments_of_excluded hlist heffect hx hv

/-- A line that lists date-times. -/
def datesLine (effect : Effect) (dates : List Moment) : Line :=
  .dates { effect, valueType := .dateTime, zone := none, dates, periods := [], parameters := .empty }

theorem readIn_of_readAllIn {lines : List Line}
    (h : (Line.readAllIn database text zone).toOption = some lines) :
    readIn database text start zone limits = .ok (withStart lines start zone limits) := by
  rw [readIn, eq_ok_of_toOption h]
  rfl

/-- Read on the clocks, the midnight that ends a day is the one that is excluded on
the clocks of another zone. -/
theorem moments_sameInstant_converted :
    let text := "RDATE:20060102T090000,20060102T240000\nEXDATE;TZID=America/New_York:20060102T190000"
    ∃ set, readIn .known text (.atTime 2006 1 1 9 0 0) .utc .standard = .ok set ∧
      (∀ v ∈ Source.moments set, ∀ w ∈ Source.moments set, v.SameInstant w →
        v = w ∨ ∃ m, (m = v ∨ m = w) ∧ m.Carries ∧ Line.Writes text m true) ∧
      ∃ lines, Line.readAllIn .known text .utc = .ok lines ∧
        ∀ list, .dates list ∈ lines → list.effect = .excludes → ∀ x ∈ list.dates,
          ∀ v ∈ Source.moments set, v.SameInstant x →
            ∃ m, (m = v ∨ m = x) ∧ m.Carries ∧ Line.Writes text m true := by
  intro text
  have hsome : (Line.readAllIn .known text .utc).toOption.isSome := by decide +kernel
  obtain ⟨lines, hlines⟩ := Option.isSome_iff_exists.1 hsome
  have hread : readIn .known text (.atTime 2006 1 1 9 0 0) .utc .standard = .ok _ :=
    readIn_of_readAllIn hlines
  exact ⟨_, hread, moments_sameInstant hread⟩

/-- **A midnight marked as UTC comes twice**, when it is listed as the end of a
day and as the beginning of the next one, and comes although it is excluded, when
it is excluded as the end of a day only. -/
theorem moments_sameInstant_marked :
    let twice := "RDATE:20060101T240000Z\nRDATE:20060102T000000Z"
    let kept := "RDATE:20060102T000000Z\nEXDATE:20060101T240000Z"
    let midnight := Moment.atTime 2006 1 1 24 0 0
    let midnight' := Moment.atTime 2006 1 2 0 0 0
    midnight.SameInstant midnight' ∧ midnight ≠ midnight' ∧
      (∃ set, readIn .known twice (.atTime 2006 1 1 9 0 0) .utc .standard = .ok set ∧
        midnight ∈ Source.moments set ∧ midnight' ∈ Source.moments set) ∧
      ∃ set lines list, readIn .known kept (.atTime 2006 1 1 9 0 0) .utc .standard = .ok set ∧
        Line.readAllIn .known kept .utc = .ok lines ∧
        .dates list ∈ lines ∧ list.effect = .excludes ∧ midnight ∈ list.dates ∧
          midnight' ∈ Source.moments set := by
  intro twice kept
  have htwice : (Line.readAllIn .known twice .utc).toOption =
      some [datesLine .includes [.atTime 2006 1 1 24 0 0],
        datesLine .includes [.atTime 2006 1 2 0 0 0]] := by
    decide +kernel
  have hkept : (Line.readAllIn .known kept .utc).toOption =
      some [datesLine .includes [.atTime 2006 1 2 0 0 0],
        datesLine .excludes [.atTime 2006 1 1 24 0 0]] := by
    decide +kernel
  refine ⟨⟨rfl, rfl, 13150 * 86400, by decide +kernel, by decide +kernel⟩, by decide,
    ⟨_, readIn_of_readAllIn htwice, by decide +kernel, by decide +kernel⟩, ?_⟩
  exact ⟨_, _, _, readIn_of_readAllIn hkept, eq_ok_of_toOption hkept,
    List.mem_cons_of_mem _ (List.mem_singleton_self _), rfl, List.mem_singleton_self _,
    by decide +kernel⟩

end RecurrenceSet

end Recurrence
