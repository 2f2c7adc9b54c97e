/-
# Years that are passed over

To pass to a date, the iterator of an endless rule raises the threshold of its
walk, and the years before that of the threshold do not count. The year of the
threshold does, also when what was in it has been passed over. So a limit that no
instant exceeds is exceeded by at most that year, and not even by it if what is
passed over ends with a year; then the iterator answers under the limit as if it
were never given up.

Key definitions: `RuleSource.EndsWithYear`, `RuleSource.Passes`.
Key theorems: `RuleSource.year_le_of_instant_le`, `RuleSource.countP_le_of_gaps`,
`RuleSource.Passes.counted_le`, `RuleSource.replies_patience`,
`RuleSource.not_replies_passedYear`, `RuleSource.moments_cutWeek`.
-/
import Recurrence.Proofs.Source.Patience
import Recurrence.Proofs.Source.Rule

namespace Recurrence

open Calendar

/-- The first year of a span counts at most once. -/
theorem AscendingList.countP_le_succ {years : List Int} (h : years.Pairwise (· < ·))
    (first last : Int) : (years.countP fun y => first ≤ y ∧ y ≤ last) ≤
      (years.countP fun y => first + 1 ≤ y ∧ y ≤ last) + 1 := by
  induction years with
  | nil => exact Nat.zero_le _
  | cons y years ih =>
    obtain ⟨hy, hyears⟩ := List.pairwise_cons.1 h
    by_cases hfirst : y = first
    · have hrest : (years.countP fun y => first ≤ y ∧ y ≤ last) =
          years.countP fun y => first + 1 ≤ y ∧ y ≤ last := by
        refine List.countP_congr fun z hz => ?_
        have := hy z hz
        simp only [decide_eq_true_eq]
        omega
      rw [List.countP_cons, List.countP_cons, hrest]
      split <;> omega
    · have := ih hyears
      rw [List.countP_cons, List.countP_cons]
      simp only [decide_eq_true_eq]
      split <;> split <;> omega

/-- The next candidate leaves the years behind it, and those up to it are
counted. -/
theorem Cascade.Ordered.next_candidate {c c' : Candidates} {found : Stamp}
    (ho : c.cascade.Ordered) (hsel : c.isSelective = false) (h : c.next = (some found, c')) :
    c'.cascade.Ordered ∧ c'.cascade.threshold = c.cascade.threshold ∧
      c'.cascade.years.toList = c.cascade.years.toList.filter (found.year < ·) ∧
      c'.cascade.barren =
        c.cascade.barren + c.cascade.countedTo found.year c.cascade.years.toList := by
  rw [Candidates.isSelective, Option.isSome_eq_false_iff, Option.isNone_iff_eq_none] at hsel
  simp only [Candidates.next, hsel] at h
  obtain ⟨hfound, rfl⟩ := Prod.mk.inj h
  exact ho.step (Cascade.step_of_next (Prod.ext hfound rfl))

namespace RuleSource

variable {s : RuleSource} {offsets : List Int}

/-! ### Instants and years -/

/-- The instant of a candidate shows a date near its own. -/
theorem instant_date (hz : s.zone.HasOffsets offsets)
    (hsmall : ∀ o ∈ offsets, -86400 < o ∧ o < 86400) {c : Stamp}
    (hc : c.date.inCalendar = true) :
    ∃ n, (s.instant c).date = .ofDays n ∧ c.date.days - 1 ≤ n ∧ n ≤ c.date.days + 2 := by
  have hsame : ∀ m : Moment, m.date = c.date →
      ∃ n, m.date = .ofDays n ∧ c.date.days - 1 ≤ n ∧ n ≤ c.date.days + 2 := fun m hm =>
    ⟨c.date.days, by rw [hm, Date.ofDays_days hc], by omega, by omega⟩
  have hdate := Stamp.toMoment_date c s.dateOnly
  unfold instant Zone.localToUtc
  generalize c.toMoment s.dateOnly = m at hdate
  split
  · cases hseconds : m.seconds? with
    | none => exact hsame m hdate
    | some wall =>
      obtain ⟨o, ho, hutc⟩ := hz.toUtc wall
      have hoffset := hsmall o ho
      have hwall := Moment.seconds_bounds hseconds
      refine ⟨(wall - o) / Moment.daySeconds, by rw [Option.map_some, hutc]; rfl, ?_⟩
      rw [hdate] at hwall
      simp only [Moment.daySeconds] at *
      omega
  · exact hsame m hdate

/-- **An instant that is not later comes from a candidate that is not a whole year
later.** -/
theorem year_le_of_instant_le (hz : s.zone.HasOffsets offsets)
    (hsmall : ∀ o ∈ offsets, -86400 < o ∧ o < 86400) {a b : Stamp}
    (ha : a.date.inCalendar = true) (hb : b.date.inCalendar = true)
    (h : s.instant a ≤ s.instant b) : a.year ≤ b.year + 1 := by
  obtain ⟨n, hn, hna, -⟩ := instant_date hz hsmall ha
  obtain ⟨m, hm, -, hmb⟩ := instant_date hz hsmall hb
  have hle : n ≤ m := by
    by_contra hlt
    have hdates := Date.ofDays_lt_ofDays (not_le.1 hlt)
    rw [← hn, ← hm] at hdates
    exact h (Or.inl hdates)
  have hlow := (Date.days_bounds ha).1
  have hhigh := (Date.days_bounds hb).2
  by_contra hyear
  have hmono := yearStart_mono (show b.year + 2 ≤ a.year by omega)
  have hstep := yearStart_add_le (show b.year + 1 < b.year + 2 by omega)
  simp only [Stamp.date] at hlow hhigh hna hmb
  omega

/-! ### What is counted for an instant -/

/-- What a source that walks along its candidates does for an instant: it passes
over those that are not new, leaves the years behind the one it takes, and has
counted those from the threshold on up to it. -/
structure Takes (s : RuleSource) (candidates : Candidates) (l : List Stamp) (c : Stamp)
    (candidates' : Candidates) (rest : List Stamp) : Prop where
  split : ∃ before, l = before ++ c :: rest ∧ ∀ x ∈ before, ¬ s.isNew (s.instant x) = true
  within : s.isPast (c.toMoment s.dateOnly) = false
  isNew : s.isNew (s.instant c) = true
  lists : candidates'.Lists rest
  ordered : candidates'.cascade.Ordered
  threshold : candidates'.cascade.threshold = candidates.cascade.threshold
  years : candidates'.cascade.years.toList =
    candidates.cascade.years.toList.filter (c.year < ·)
  counted : candidates'.cascade.barren = candidates.cascade.barren +
    candidates.cascade.countedTo c.year candidates.cascade.years.toList

theorem takes_originFrom {candidates candidates' : Candidates} {l : List Stamp} {c : Stamp}
    (hsel : candidates.isSelective = false) (ho : candidates.cascade.Ordered)
    (hl : candidates.Lists l) (hasc : l.Pairwise (· < ·))
    (h : s.originFrom candidates = some (c, candidates')) :
    ∃ rest, s.Takes candidates l c candidates' rest := by
  fun_induction originFrom s candidates generalizing l with
  | case1 => simp at h
  | case2 => simp at h
  | case3 => simp at h
  | case4 candidates f candidates'' hstep hpast hnew hspent =>
    obtain ⟨rfl, rfl⟩ := Prod.mk.inj (Option.some.inj h)
    obtain ⟨ho', hthreshold, hyears, hcount⟩ := ho.next_candidate hsel hstep
    obtain ⟨hhead, htail⟩ := hl.next
    rw [hstep] at hhead htail
    obtain ⟨rest, rfl⟩ := List.head?_eq_some_iff.1 hhead.symm
    exact ⟨rest, ⟨[], rfl, by simp⟩, by simpa using hpast, hnew, htail, ho', hthreshold, hyears,
      hcount⟩
  | case5 candidates f candidates'' hstep hpast hnew ih =>
    obtain ⟨ho', hthreshold, hyears, hcount⟩ := ho.next_candidate hsel hstep
    obtain ⟨hhead, htail⟩ := hl.next
    have hsel' := (isSelective_next candidates).trans hsel
    rw [hstep] at hhead htail hsel'
    obtain ⟨rest', rfl⟩ := List.head?_eq_some_iff.1 hhead.symm
    obtain ⟨hfirst, hasc⟩ := List.pairwise_cons.1 hasc
    obtain ⟨rest, ⟨⟨before, hsplit, hbefore⟩, hwithin, hnew', hlists, ho'', hthreshold', hyears',
      hcount'⟩⟩ := ih hsel' ho' htail hasc h
    have hle : f.year ≤ c.year :=
      Stamp.year_le_of_le (hfirst c (by rw [show rest' = _ from hsplit]; simp)).le
    refine ⟨rest, ⟨f :: before, by rw [show rest' = _ from hsplit]; rfl,
      List.forall_mem_cons.2 ⟨hnew, hbefore⟩⟩, hwithin, hnew', hlists, ho'',
      hthreshold'.trans hthreshold, ?_, ?_⟩
    · rw [hyears', hyears, List.filter_filter]
      refine List.filter_congr fun y _ => ?_
      simp only [Bool.and_eq_left_iff_imp, decide_eq_true_eq]
      omega
    · rw [hcount', hcount, Nat.add_assoc, ← candidates.cascade.countedTo_add hle, hyears]
      simp only [Cascade.countedTo, hthreshold]

theorem length_years (s : RuleSource) :
    s.candidates.cascade.years.toList.length = s.yearsLeft := by
  simp [YearSteps.toList, yearsLeft]

section Gives

variable {candidates : Candidates} {l rest : List Stamp} {f c r : Stamp}

theorem Takes.mem (h : s.Takes s.candidates l f candidates rest) (hc : c ∈ l)
    (hnew : s.isNew (s.instant c) = true) : c = f ∨ c ∈ rest := by
  obtain ⟨before, rfl, hbefore⟩ := h.split
  rcases List.mem_append.1 hc with hc | hc
  · exact absurd hnew (hbefore c hc)
  · exact List.mem_cons.1 hc

theorem Takes.mem_self (h : s.Takes s.candidates l f candidates rest) : f ∈ l := by
  obtain ⟨before, rfl, -⟩ := h.split
  exact List.mem_append_right _ List.mem_cons_self

theorem Takes.mem_left (h : s.Takes s.candidates l f candidates rest) (hc : c ∈ rest) :
    c ∈ l := by
  obtain ⟨before, rfl, -⟩ := h.split
  exact List.mem_append_right _ (List.mem_cons_of_mem _ hc)

theorem Takes.lt (h : s.Takes s.candidates l f candidates rest) (hasc : l.Pairwise (· < ·))
    (hc : c ∈ rest) : f < c := by
  obtain ⟨before, rfl, -⟩ := h.split
  exact (List.pairwise_cons.1 (List.pairwise_append.1 hasc).2.1).1 c hc

theorem Takes.pairwise (h : s.Takes s.candidates l f candidates rest)
    (hasc : l.Pairwise (· < ·)) : rest.Pairwise (· < ·) := by
  obtain ⟨before, rfl, -⟩ := h.split
  exact (List.pairwise_cons.1 (List.pairwise_append.1 hasc).2.1).2

/-- What is not left is old, and not after the candidate that is taken. -/
theorem Takes.passed (h : s.Takes s.candidates l f candidates rest) (hasc : l.Pairwise (· < ·))
    (hc : c ∈ l) (hc' : c ∉ rest) :
    c ≤ f ∧ ¬ (s.behind f candidates).isNew (s.instant c) = true := by
  have hnew : (s.behind f candidates).isNew (s.instant c) = true ↔
      s.instant f < s.instant c ∧ s.isNew (s.instant c) = true := isNew_after h.isNew _
  rw [hnew]
  obtain ⟨before, rfl, hbefore⟩ := h.split
  rcases List.mem_append.1 hc with hc | hc
  · exact ⟨((List.pairwise_append.1 hasc).2.2 c hc f List.mem_cons_self).le,
      fun h' => hbefore c hc h'.2⟩
  · obtain rfl := (List.mem_cons.1 hc).resolve_right hc'
    exact ⟨le_refl c, fun h' => lt_irrefl _ h'.1⟩

theorem Takes.gives (h : s.Takes s.candidates l f candidates rest) (hasc : l.Pairwise (· < ·)) :
    s.Gives l (s.instant f) f := by
  refine ⟨h.within, rfl, h.isNew, fun x hx hlt => lt_of_isNew h.isNew fun hnew => ?_⟩
  rcases h.mem hx hnew with rfl | hx
  · exact lt_irrefl _ hlt
  · exact lt_asymm hlt (h.lt hasc hx)

/-- Behind an instant the same candidates give the later ones. -/
theorem Takes.gives_iff (h : s.Takes s.candidates l f candidates rest)
    (hasc : l.Pairwise (· < ·)) (hr : r ∈ rest) :
    (s.behind f candidates).Gives rest (s.instant r) r ↔ s.Gives l (s.instant r) r := by
  have hlt := h.lt hasc hr
  have hnew : (s.behind f candidates).isNew (s.instant r) = true ↔
      s.instant f < s.instant r ∧ s.isNew (s.instant r) = true := isNew_after h.isNew _
  constructor
  · rintro ⟨hwithin, -, hr', hbefore⟩
    obtain ⟨hafter, hr'⟩ := hnew.1 hr'
    refine ⟨hwithin, rfl, hr', fun x hx hxr => ?_⟩
    by_cases hx' : s.isNew (s.instant x) = true
    · rcases h.mem hx hx' with rfl | hx
      · exact hafter
      · exact hbefore x hx hxr
    · exact lt_of_isNew hr' hx'
  · rintro ⟨hwithin, -, hr', hbefore⟩
    exact ⟨hwithin, rfl, hnew.2 ⟨hbefore f h.mem_self hlt, hr'⟩,
      fun x hx hxr => hbefore x (h.mem_left hx) hxr⟩

/-- **Between two instants a source enters no more years than its gaps.** -/
theorem countP_le_of_gaps {n : Nat} (hs : s.Prunes) (ho : s.candidates.cascade.Ordered)
    (hl : s.candidates.Lists l) (hasc : l.Pairwise (· < ·)) (hgaps : ∀ years ∈ s.gaps, years ≤ n)
    (hc : c ∈ l) (hgives : s.Gives l (s.instant c) c) {p : Int → Bool}
    (hp : ∀ y, p y = true → y ≤ c.year ∧
      ∀ r ∈ l, r < c → s.Gives l (s.instant r) r → r.year < y) :
    s.candidates.cascade.years.toList.countP p ≤ n := by
  induction hsize : s.size using Nat.strong_induction_on generalizing s l with
  | _ size ih =>
    cases horigin : s.originFrom s.candidates with
    | none =>
      have hmem := (mem_emitted hs.1 hasc _).2 ⟨c, hc, hgives⟩
      obtain ⟨m, ms, hms⟩ := List.exists_cons_of_ne_nil (List.ne_nil_of_mem hmem)
      obtain ⟨s', -, hstep, -⟩ := (produceFrom_emitted hl rfl).2 m ms hms
      rw [produceFrom_eq, horigin] at hstep
      exact absurd hstep (by simp)
    | some q =>
      obtain ⟨f, candidates⟩ := q
      obtain ⟨rest, htakes⟩ := takes_originFrom hs.2 ho hl hasc horigin
      have hstep : s.produce = some (s.instant f, s.behind f candidates) :=
        s.produce_eq.trans (by rw [horigin]; rfl)
      rw [gaps_some hstep, List.forall_mem_cons, ← length_years, ← length_years] at hgaps
      have hyears : (s.behind f candidates).candidates.cascade.years.toList =
          s.candidates.cascade.years.toList.filter (f.year < ·) := htakes.years
      rcases htakes.mem hc hgives.2.2.1 with rfl | hc'
      · have hcount := List.length_eq_countP_add_countP (c.year < ·)
          (l := s.candidates.cascade.years.toList)
        have hle := List.countP_mono_left (p := p) (q := fun y => ¬ c.year < y)
          (l := s.candidates.cascade.years.toList) fun y _ hy => by
            have := (hp y hy).1
            simp only [decide_eq_true_eq]
            omega
        rw [hyears, ← List.countP_eq_length_filter] at hgaps
        have := hgaps.1
        simp only [decide_eq_true_eq] at hcount
        omega
      · have hlt := htakes.lt hasc hc'
        have hpf : s.candidates.cascade.years.toList.countP p =
            (s.behind f candidates).candidates.cascade.years.toList.countP p := by
          rw [hyears, List.countP_filter]
          refine List.countP_congr fun y _ => ?_
          simp only [Bool.and_eq_true, decide_eq_true_eq, iff_self_and]
          exact fun hy => (hp y hy).2 f htakes.mem_self hlt (htakes.gives hasc)
        rw [hpf]
        refine ih _ (hsize ▸ size_of_originFrom horigin)
          ((sameRule_behind horigin).prunes_iff.2 hs) htakes.ordered.instanceFound
          htakes.lists.instanceFound (htakes.pairwise hasc) hgaps.2 hc'
          ((htakes.gives_iff hasc hc').2 hgives)
          (fun y hy => ⟨(hp y hy).1, fun r hr hrc hgivesr => ?_⟩) rfl
        exact (hp y hy).2 r (htakes.mem_left hr) hrc ((htakes.gives_iff hasc hr).1 hgivesr)

end Gives

/-! ### Passing over years -/

/-- Where a source stands that has passed over some of its candidates: each of these
lies before the threshold, or is not new any more and in a year that is over. -/
structure Passes (s₀ : RuleSource) (l₀ : List Stamp) (s : RuleSource) (l : List Stamp) : Prop where
  same : SameRule s₀ s
  lists : s.candidates.Lists l
  suffix : l <:+ l₀
  ordered : s.candidates.cascade.Ordered
  barren : s.candidates.cascade.barren = 0
  years : s.candidates.cascade.years.toList.Sublist s₀.candidates.cascade.years.toList
  isNew : ∀ m, s.isNew m = true → s₀.isNew m = true
  gives : ∀ r ∈ l, s₀.Gives l₀ (s₀.instant r) r → s.isNew (s₀.instant r) = true
  passed : ∀ x ∈ l₀, x ∉ l → x < s.candidates.cascade.threshold ∨
    ¬ s.isNew (s₀.instant x) = true ∧ ∀ y ∈ s.candidates.cascade.years.toList, x.year < y

section Passes

variable {s₀ : RuleSource} {l₀ l : List Stamp}

theorem Passes.refl (hl : s.candidates.Lists l) (ho : s.candidates.cascade.Ordered)
    (hbarren : s.candidates.cascade.barren = 0) : Passes s l s l where
  same := .refl s
  lists := hl
  suffix := List.suffix_rfl
  ordered := ho
  barren := hbarren
  years := List.Sublist.refl _
  isNew _ h := h
  gives _ _ h := h.2.2.1
  passed _ h h' := absurd h h'

theorem Passes.takes (h : Passes s₀ l₀ s l) (hl₀ : l₀.Pairwise (· < ·)) (hs : s₀.Prunes)
    {c : Stamp} {candidates : Candidates}
    (horigin : s.originFrom s.candidates = some (c, candidates)) :
    ∃ rest, s.Takes s.candidates l c candidates rest :=
  takes_originFrom (h.same.prunes_iff.2 hs).2 h.ordered h.lists
    (hl₀.sublist h.suffix.sublist) horigin

/-- Taking an instant passes over what comes before it. -/
theorem Passes.behind (h : Passes s₀ l₀ s l) (hl₀ : l₀.Pairwise (· < ·)) {c : Stamp}
    {candidates : Candidates} {rest : List Stamp}
    (horigin : s.originFrom s.candidates = some (c, candidates))
    (htakes : s.Takes s.candidates l c candidates rest) :
    Passes s₀ l₀ (s.behind c candidates) rest := by
  have hasc := hl₀.sublist h.suffix.sublist
  have hinstant : ∀ x, s.instant x = s₀.instant x := h.same.instant_eq
  have hyears : (s.behind c candidates).candidates.cascade.years.toList =
      s.candidates.cascade.years.toList.filter (c.year < ·) := htakes.years
  have hnew : ∀ m, (s.behind c candidates).isNew m = true ↔
      s.instant c < m ∧ s.isNew m = true := isNew_after htakes.isNew
  refine ⟨h.same.trans (sameRule_behind horigin), htakes.lists.instanceFound, ?_,
    htakes.ordered.instanceFound, rfl, ?_, fun m hm => h.isNew m ((hnew m).1 hm).2, ?_, ?_⟩
  · obtain ⟨before, hsplit, -⟩ := htakes.split
    exact (List.suffix_cons _ _).trans ((hsplit ▸ List.suffix_append _ _).trans h.suffix)
  · rw [hyears]
    exact List.filter_sublist.trans h.years
  · intro r hr hgives
    have hc := h.suffix.subset htakes.mem_self
    refine (hnew _).2 ⟨?_, h.gives r (htakes.mem_left hr) hgives⟩
    rw [hinstant]
    exact hgives.2.2.2 c hc (htakes.lt hasc hr)
  · intro x hx hxrest
    rw [hyears]
    by_cases hxl : x ∈ l
    · obtain ⟨hle, hold⟩ := htakes.passed hasc hxl hxrest
      rw [hinstant] at hold
      refine Or.inr ⟨hold, fun y hy => ?_⟩
      have := Stamp.year_le_of_le hle
      have := (List.mem_filter.1 hy).2
      simp only [decide_eq_true_eq] at this
      omega
    · rcases h.passed x hx hxl with hlt | ⟨hold, hbehind⟩
      · exact Or.inl (htakes.threshold ▸ hlt)
      · exact Or.inr ⟨fun hx' => hold ((hnew _).1 hx').2,
          fun y hy => hbehind y (List.mem_filter.1 hy).1⟩

/-- Raising the threshold passes over what comes before it. -/
theorem Passes.prune (h : Passes s₀ l₀ s l) (hl₀ : l₀.Pairwise (· < ·)) (hs : s₀.Prunes)
    (d : Moment) : Passes s₀ l₀ (s.prune d) (l.filter (s₀.dayBefore d ≤ ·)) := by
  have hprunes := h.same.prunes_iff.2 hs
  have hprune := prune_of hprunes d
  rw [h.same.dayBefore_eq d] at hprune
  generalize s₀.dayBefore d = cut at hprune
  obtain ⟨hthreshold, hyears, hbarren, -⟩ := s.candidates.cascade.raiseThreshold_keeps cut
  rw [hprune]
  refine ⟨h.same.trans ⟨rfl, rfl, rfl, rfl, rfl, rfl⟩, h.lists.raiseThreshold hprunes.2 cut, ?_,
    h.ordered.raiseThreshold cut, hbarren.trans h.barren, hyears ▸ h.years, h.isNew,
    fun r hr hgives => h.gives r (List.mem_filter.1 hr).1 hgives, fun x hx hxl => ?_⟩
  · rw [← AscendingList.dropWhile_lt (hl₀.sublist h.suffix.sublist)]
    exact (List.dropWhile_suffix _).trans h.suffix
  · show x < (s.candidates.cascade.raiseThreshold cut).threshold ∨
      ¬ s.isNew (s₀.instant x) = true ∧
        ∀ y ∈ (s.candidates.cascade.raiseThreshold cut).years.toList, x.year < y
    rw [hthreshold, hyears, lt_max_iff]
    by_cases hxl' : x ∈ l
    · refine Or.inl (Or.inr ?_)
      by_contra hge
      exact hxl (List.mem_filter.2 ⟨hxl', by simpa using hge⟩)
    · exact (h.passed x hx hxl').imp_left Or.inl

/-- **The years behind the candidates that are passed over** number no more, up to
the next candidate that is taken, than the years between two instants. -/
theorem Passes.counted_le {n : Nat} (h : Passes s₀ l₀ s l) (hs : s₀.Prunes)
    (ho : s₀.candidates.cascade.Ordered) (hl : s₀.candidates.Lists l₀)
    (hl₀ : l₀.Pairwise (· < ·)) (hgaps : ∀ years ∈ s₀.gaps, years ≤ n)
    (hyears : ∀ x ∈ l₀, x.year ∈ s₀.candidates.cascade.years.toList)
    (hclose : ∀ x ∈ l₀, ∀ y ∈ l₀, s₀.instant x ≤ s₀.instant y → x.year ≤ y.year + 1)
    {c : Stamp} {candidates : Candidates} {rest : List Stamp}
    (htakes : s.Takes s.candidates l c candidates rest) (first : Int)
    (hfirst : ∀ x ∈ l₀, x < s.candidates.cascade.threshold → x.year < first) :
    (s.candidates.cascade.years.toList.countP fun y => first ≤ y ∧ y ≤ c.year) ≤ n := by
  have hasc := hl₀.sublist h.suffix.sublist
  have hinstant : ∀ x, s.instant x = s₀.instant x := h.same.instant_eq
  have hc := h.suffix.subset htakes.mem_self
  have hnew := htakes.isNew
  have hwithin := htakes.within
  rw [hinstant] at hnew
  rw [isPast, h.same.bound, h.same.dateOnly] at hwithin
  -- what comes before it has been passed over, or is not new
  have hpassed : ∀ x ∈ l₀, x < c → s.isNew (s₀.instant x) = true → x.year < first := by
    intro x hx hlt hxnew
    by_cases hxl : x ∈ l
    · rcases htakes.mem hxl (by rw [hinstant]; exact hxnew) with rfl | hx
      · exact absurd hlt (lt_irrefl _)
      · exact absurd hlt (htakes.lt hasc hx).not_gt
    · rcases h.passed x hx hxl with hlt | ⟨hold, -⟩
      · exact hfirst x hx hlt
      · exact absurd hxnew hold
  by_cases hbefore : ∀ x ∈ l₀, x < c → s₀.instant x < s₀.instant c
  · -- it gives an instant also where nothing is passed over
    have hcount : (s.candidates.cascade.years.toList.countP fun y => first ≤ y ∧ y ≤ c.year) =
        s.candidates.cascade.years.toList.countP fun y =>
          (first ≤ y ∧ y ≤ c.year) ∧ y ∈ s.candidates.cascade.years.toList := by
      refine List.countP_congr fun y hy => ?_
      simp only [hy, and_true]
    rw [hcount]
    refine (h.years.countP_le).trans ?_
    refine countP_le_of_gaps hs ho hl hl₀ hgaps hc ⟨hwithin, rfl, h.isNew _ hnew, hbefore⟩ ?_
    intro y hy
    obtain ⟨⟨hlow, hhigh⟩, hy⟩ := of_decide_eq_true hy
    refine ⟨hhigh, fun r hr hlt hgives => ?_⟩
    by_cases hrl : r ∈ l
    · exact (hpassed r hr hlt (h.gives r hrl hgives)).trans_le hlow
    · rcases h.passed r hr hrl with hlt | ⟨-, hbehind⟩
      · exact (hfirst r hr hlt).trans_le hlow
      · exact hbehind y hy
  · -- it comes after one that is not earlier and was passed over, so in the same year or the next
    push Not at hbefore
    obtain ⟨x, hx, hlt, hle⟩ := hbefore
    have hxnew : s.isNew (s₀.instant x) = true := by
      by_contra hold
      exact absurd (lt_of_isNew hnew hold) (not_lt.2 hle)
    have hxfirst := hpassed x hx hlt hxnew
    have hxyear := hclose c hc x hx hle
    obtain ⟨f, hf, hfnew, hfx, hfbefore⟩ := AscendingList.exists_first hl₀
      (p := fun x => s₀.isNew (s₀.instant x) = true) hx (h.isNew _ hxnew)
    have hfwithin : s₀.isPast (f.toMoment s₀.dateOnly) = false := by
      by_contra hpast
      rw [Bool.not_eq_false] at hpast
      have := isPast_mono (hfx.trans hlt.le) hpast
      rw [isPast, hwithin] at this
      exact absurd this (by simp)
    have hone : s₀.candidates.cascade.years.toList.countP (· = f.year) ≤ n :=
      countP_le_of_gaps hs ho hl hl₀ hgaps hf
        ⟨hfwithin, rfl, hfnew, fun z hz hzf => lt_of_isNew hfnew (hfbefore z hz hzf)⟩ fun y hy => by
          have hy : y = f.year := of_decide_eq_true hy
          exact ⟨hy.le, fun r hr hrf hgives => absurd hgives.2.2.1 (hfbefore r hr hrf)⟩
    have hpos : 0 < s₀.candidates.cascade.years.toList.countP (· = f.year) :=
      List.countP_pos_iff.2 ⟨f.year, hyears f hf, by simp⟩
    have hmost := AscendingList.countP_le_succ
      (YearSteps.pairwise_toList h.ordered.interval) first c.year
    have hnone : (s.candidates.cascade.years.toList.countP
        fun y => first + 1 ≤ y ∧ y ≤ c.year) = 0 := by
      refine List.countP_eq_zero.2 fun y _ => ?_
      simp only [decide_eq_true_eq]
      omega
    omega

/-- What is passed over for a date may leave candidates before the threshold in its
year, which is one more than is counted between two instants. -/
theorem keepsPace_passes {n patience : Nat} (hs : s₀.Prunes)
    (ho : s₀.candidates.cascade.Ordered) (hl : s₀.candidates.Lists l₀)
    (hl₀ : l₀.Pairwise (· < ·)) (hgaps : ∀ years ∈ s₀.gaps, years ≤ n) (hn : n ≤ patience)
    (hyears : ∀ x ∈ l₀, x.year ∈ s₀.candidates.cascade.years.toList)
    (hclose : ∀ x ∈ l₀, ∀ y ∈ l₀, s₀.instant x ≤ s₀.instant y → x.year ≤ y.year + 1) :
    KeepsPace
      (fun d => n < patience ∨ ∀ x ∈ l₀, x < s₀.dayBefore d → x.year < (s₀.dayBefore d).year)
      (fun s => s.candidates.cascade.Unhurried ∧ (∃ l, Passes s₀ l₀ s l) ∧
        (n < patience ∨ ∀ x ∈ l₀, x < s.candidates.cascade.threshold →
          x.year < s.candidates.cascade.threshold.year))
      patience where
  paced := by
    rintro s ⟨hunhurried, ⟨l, h⟩, -⟩
    exact Candidates.paced_of_unhurried (h.same.prunes_iff.2 hs).2 hunhurried
  counted := by
    rintro s c candidates ⟨-, ⟨l, h⟩, hthreshold⟩ horigin
    obtain ⟨rest, htakes⟩ := h.takes hl₀ hs horigin
    rw [htakes.counted, h.barren, Nat.zero_add, Cascade.countedTo]
    have hmost := h.counted_le hs ho hl hl₀ hgaps hyears hclose htakes
    rcases hthreshold with hmore | hthreshold
    · have hlast := AscendingList.countP_le_succ
        (YearSteps.pairwise_toList h.ordered.interval) s.candidates.cascade.threshold.year c.year
      have := hmost (s.candidates.cascade.threshold.year + 1) fun x _ hlt => by
        have := Stamp.year_le_of_le hlt.le
        omega
      omega
    · exact (hmost _ hthreshold).trans hn
  behind := by
    rintro s c candidates ⟨hunhurried, ⟨l, h⟩, hthreshold⟩ horigin
    obtain ⟨rest, htakes⟩ := h.takes hl₀ hs horigin
    refine ⟨((spends_originFrom horigin).unhurried hunhurried).instanceFound,
      ⟨rest, h.behind hl₀ horigin htakes⟩, ?_⟩
    have hkept : (s.behind c candidates).candidates.cascade.threshold =
        s.candidates.cascade.threshold := htakes.threshold
    rw [hkept]
    exact hthreshold
  prune := by
    rintro s d ⟨hunhurried, ⟨l, h⟩, hthreshold⟩ hd
    obtain ⟨hraised, hyears, hbarren, hpatience⟩ :=
      s.candidates.cascade.raiseThreshold_keeps (s.dayBefore d)
    refine ⟨?_, ⟨_, h.prune hl₀ hs d⟩, ?_⟩
    · rw [prune_of (h.same.prunes_iff.2 hs)]
      show (s.candidates.cascade.raiseThreshold (s.dayBefore d)).Unhurried
      unfold Cascade.Unhurried at *
      rw [hyears, hbarren, hpatience]
      exact hunhurried
    · rw [prune_of (h.same.prunes_iff.2 hs)]
      show n < patience ∨ ∀ x ∈ l₀,
        x < (s.candidates.cascade.raiseThreshold (s.dayBefore d)).threshold →
          x.year < (s.candidates.cascade.raiseThreshold (s.dayBefore d)).threshold.year
      rw [hraised, h.same.dayBefore_eq]
      rcases max_choice s.candidates.cascade.threshold (s₀.dayBefore d) with heq | heq
      · rw [heq]
        exact hthreshold
      · rw [heq]
        exact hd

end Passes

/-! ### Questions under a limit -/

/-- Whether what is passed over for a date ends with a year. -/
def EndsWithYear (s : RuleSource) (d : Moment) : Prop :=
  ∀ c, s.IsCandidate c → c < s.dayBefore d → c.year < (s.dayBefore d).year

variable {rule : Rule} {start : Moment} {zone : Zone} {limits : Limits}

theorem ordered_of (rule : Rule) (start : Moment) (zone : Zone) (limits : Limits) :
    (of rule start zone limits).candidates.cascade.Ordered := by
  refine ⟨Rule.spans_levels _ _ _ _, ?_, ?_⟩
  · simp only [of, Rule.candidates, YearSteps.of]
    omega
  · simp [of, Rule.candidates]

theorem paced_of (zone : Zone) (hd : start.date.inCalendar = true)
    (hlimits : limits.maxYear - start.date.year + 2 ≤ limits.maxYearsBetweenInstances)
    (hfront : rule.frequency = .weekly → ∀ p ∈ rule.bySetPos, 0 < p) :
    (of rule start zone limits).candidates.Paced := by
  refine ⟨(Rule.cascade_lists rule hd hlimits).patience, fun sel hsel => ?_⟩
  simp only [of, Rule.candidates] at hsel
  split at hsel
  · simp at hsel
  · obtain rfl := Option.mem_some_iff.1 hsel
    exact ⟨⟨ordered_of rule start zone limits, by simp⟩, hfront⟩

/-- **A limit that no instant exceeds hides none.** Where each instant of a rule is
reached within so many years of the one before, the first one counting the year of
the start, a rule under a limit that is not less has all these instants. It answers
every sequence of questions as if it were never given up, if its positions do not
count from the end of a week, and if it has a count or positions, or its limit is
greater, or what is passed over for a date ends with a year. -/
theorem replies_patience (hd : start.date.inCalendar = true) (hz : zone.HasOffsets offsets)
    (hsmall : ∀ o ∈ offsets, -86400 < o ∧ o < 86400)
    (hlimits : limits.maxYear - start.date.year + 2 ≤ limits.maxYearsBetweenInstances)
    {n patience : Nat} (hgaps : ∀ years ∈ (of rule start zone limits).gaps, years ≤ n)
    (hn : n ≤ patience) :
    let endless := of rule start zone limits
    let limited := of rule start zone ⟨patience, limits.maxYear⟩
    Source.moments endless <+: Source.moments limited ∧
      ((rule.frequency = .weekly → ∀ p ∈ rule.bySetPos, 0 < p) → ∀ qs : List Query,
        ((∃ k, rule.finish = .count k) ∨ rule.bySetPos ≠ [] ∨ n < patience ∨
          Query.DatesIn endless.EndsWithYear qs) →
        (Cursor.idle limited).replies qs = (Cursor.idle endless).replies qs) := by
  intro endless limited
  have hlimited : limited = endless.withPatience patience := rfl
  have hgaps' : ∀ years ∈ endless.gaps, years ≤ patience := fun years h => (hgaps years h).trans hn
  have hlists := Rule.lists_handedOut rule hd hlimits
  rw [hlimited]
  refine ⟨moments_kept (Rule.cascade_lists rule hd hlimits).patience rfl hgaps',
    fun hfront qs hqs => ?_⟩
  by_cases hprunes : endless.Prunes
  · have hkeeps := (prunes_of_iff rule start zone limits).1 hprunes
    have hordered := ordered_of rule start zone limits
    have hpending := fun x hx => (Rule.mem_pending rule start limits x).1
      ((Rule.handedOut_sublist rule start limits).subset hx)
    have hdate : ∀ x ∈ rule.handedOut start limits, x.date.inCalendar = true := fun x hx =>
      Rule.date_of_takes (hpending x hx).2.2
    have hpace := keepsPace_passes hprunes hordered hlists
      (Rule.pairwise_handedOut rule start limits) hgaps hn (fun x hx => (hpending x hx).1)
      (fun x hx y hy => year_le_of_instant_le hz hsmall (hdate x hx) (hdate y hy))
    refine hpace.replies (s := endless) ⟨(Rule.cascade_lists rule hd hlimits).patience,
      ⟨_, .refl hlists hordered rfl⟩, Or.inr fun x hx hlt => ?_⟩ qs ?_
    · exact absurd hlt (not_lt.2 (hpending x hx).2.1)
    · rcases hqs with hcount | hpos | hmore | hdates
      · exact absurd (Or.inl hcount) hkeeps
      · exact absurd (Or.inr hpos) hkeeps
      · exact fun _ _ => Or.inl hmore
      · exact fun d hd => Or.inr fun x hx =>
          hdates d hd x ((isCandidate_iff hlists x).2 hx)
  · exact (keepsPace_staysWithin (fun _ => True) patience).replies
      ⟨hprunes, paced_of zone hd hlimits hfront, rfl, hgaps'⟩ qs fun _ _ => trivial

/-- Every 29 February. -/
def leapDays : Rule :=
  { Rule.every .yearly with byMonth := [2], byMonthDay := [29] }

theorem replies_patience_leapDays :
    let endless := of leapDays (.onDate 2004 2 29) .utc ⟨14, 2016⟩
    let limited := of leapDays (.onDate 2004 2 29) .utc ⟨5, 2016⟩
    Source.moments endless <+: Source.moments limited ∧
      ∀ qs, (Cursor.idle limited).replies qs = (Cursor.idle endless).replies qs := by
  obtain ⟨hbegins, hreplies⟩ := @replies_patience [0] leapDays (.onDate 2004 2 29) .utc ⟨14, 2016⟩
    (by decide) .utc (by decide) (by decide) 4 5 (by decide +kernel) (by decide)
  exact ⟨hbegins, fun qs => hreplies (by simp [leapDays, Rule.every]) qs
    (Or.inr (Or.inr (Or.inl (by decide))))⟩

/-- The first of January of every year. -/
def newYears : Rule :=
  Rule.every .yearly

/-- **The year that a date is passed to counts**, although its instance has been
passed over. Every new year is reached within a year of the one before, but under a
limit of one year there is none after June. -/
theorem not_replies_passedYear :
    let start := Moment.onDate 2006 1 1
    let endless := of newYears start .utc ⟨8, 2012⟩
    let limited := of newYears start .utc ⟨1, 2012⟩
    (newYears.InRange ∧ start.IsValid ∧ ∀ years ∈ endless.gaps, years ≤ 1) ∧
      (Cursor.idle endless).replies [.advanceTo (.onDate 2008 6 1), .next] =
        [.done, .moment (some (.onDate 2009 1 1))] ∧
      (Cursor.idle limited).replies [.advanceTo (.onDate 2008 6 1), .next] =
        [.done, .moment none] :=
  ⟨⟨by constructor <;> simp [newYears, Rule.every], by decide, by decide +kernel⟩,
    by decide +kernel, by decide +kernel⟩

/-- The last days of the weekends until the end of 2005. -/
def weekendEnds : Rule :=
  { Rule.every .weekly with
    byDay := [.every .saturday, .every .sunday], bySetPos := [-1]
    finish := .untilLocal (.onDate 2005 12 31) }

/-- Given up at the end of 2005, the rule takes Saturday 31 December for the last day
of the weekend. -/
theorem next_weekendEnds :
    (weekendEnds.candidates (.onDate 2005 12 31) ⟨1, 2006⟩).next.1 =
      some ⟨2005, 12, 31, 0, 0, 0⟩ := by
  generalize hc : weekendEnds.candidates (.onDate 2005 12 31) ⟨1, 2006⟩ = c
  let sel : PeriodSelection := ⟨[-1], .weekly, .monday, none, []⟩
  have hsel : c.selection = some sel := by
    rw [← hc]
    rfl
  have hfirst : (sel.first c.cascade).1 = some ⟨2005, 12, 31, 0, 0, 0⟩ := by
    rw [← hc]
    decide +kernel
  have hpicked : atPositions sel.positions
      (sel.gather (Stamp.periodStart ⟨2005, 12, 31, 0, 0, 0⟩ sel.frequency sel.weekStart)
        [⟨2005, 12, 31, 0, 0, 0⟩] (sel.first c.cascade).2).1 = [⟨2005, 12, 31, 0, 0, 0⟩] := by
    rw [← hc]
    decide +kernel
  simp only [Candidates.next, hsel]
  rw [PeriodSelection.next_some rfl (Prod.ext hfirst rfl), PeriodSelection.next_selected hpicked]

/-- **A week that is cut off loses its end.** The Sunday behind that Saturday lies past
the bound, so the rule has no instant unless it is given up. -/
theorem moments_cutWeek :
    Source.moments (of weekendEnds (.onDate 2005 12 31) .utc ⟨4, 2006⟩) = [] ∧
      Source.moments (of weekendEnds (.onDate 2005 12 31) .utc ⟨1, 2006⟩) ≠ [] := by
  constructor
  · rw [moments_of weekendEnds .utc (by decide) (by decide)]
    decide +kernel
  · have hstep := produceFrom_some (of weekendEnds (.onDate 2005 12 31) .utc ⟨1, 2006⟩)
      next_weekendEnds
    rw [if_neg (by decide), if_pos (by decide), if_neg (by decide)] at hstep
    rw [Source.moments_some hstep]
    exact List.cons_ne_nil _ _

end RuleSource

end Recurrence
