/-
# The patience of a walk

A walk counts the years that it enters without an instance, and is given up at one
too many. What it counts tells for which limits it would have found the same: a
search that ends with a count within another limit ends the same way under that
limit. Between two instances at most the years are counted that are spent
(`Cascade.Spends`); without positions exactly those from the threshold on, up to
that of the candidate that is found (`Cascade.Ordered.step`).

Key definitions: `Cascade.withPatience`, `Cascade.Spends`, `Cascade.Ordered`.
Key theorems: `Cascade.step_withPatience`, `Cascade.next_withPatience`,
`Cascade.Ordered.step`, `Candidates.next_withPatience`, `Candidates.spends_next`.
-/
import Recurrence.Expansion.Positions
import Recurrence.Proofs.Expansion.Walk

namespace Recurrence

namespace Cascade

/-- The walk with another limit of years without an instance. -/
def withPatience (c : Cascade) (n : Nat) : Cascade :=
  { c with patience := n }

@[simp] theorem withPatience_withPatience (c : Cascade) (n m : Nat) :
    (c.withPatience n).withPatience m = c.withPatience m := rfl

@[simp] theorem withPatience_self (c : Cascade) : c.withPatience c.patience = c := rfl

theorem raiseThreshold_withPatience (c : Cascade) (n : Nat) (raised : Stamp) :
    (c.withPatience n).raiseThreshold raised = (c.raiseThreshold raised).withPatience n := by
  unfold raiseThreshold
  by_cases h : c.threshold < raised
  · rw [if_pos h]
    exact if_pos h
  · rw [if_neg h]
    exact if_neg h

/-! ### Years that are spent -/

/-- What a part of a walk spends: it counts no more years than it takes from those
to come, and does not change the limit. -/
structure Spends (c c' : Cascade) : Prop where
  barren : c.barren ≤ c'.barren
  total : c'.barren + c'.years.left ≤ c.barren + c.years.left
  patience : c'.patience = c.patience

theorem Spends.refl (c : Cascade) : c.Spends c :=
  ⟨Nat.le_refl _, Nat.le_refl _, rfl⟩

theorem Spends.trans {c c' c'' : Cascade} (h : c.Spends c') (h' : c'.Spends c'') :
    c.Spends c'' :=
  ⟨h.barren.trans h'.barren, h'.total.trans h.total, h'.patience.trans h.patience⟩

/-- Whether the years to come do not exhaust the limit. -/
def Unhurried (c : Cascade) : Prop :=
  c.barren + c.years.left ≤ c.patience

theorem Spends.unhurried {c c' : Cascade} (h : c.Spends c') (hc : c.Unhurried) :
    c'.Unhurried := by
  have := h.total
  have := h.patience
  unfold Unhurried at *
  omega

theorem Unhurried.instanceFound {c : Cascade} (h : c.Unhurried) : c.instanceFound.Unhurried := by
  unfold Unhurried at *
  simp only [Cascade.instanceFound]
  omega

theorem raiseThreshold_keeps (c : Cascade) (raised : Stamp) :
    (c.raiseThreshold raised).threshold = max c.threshold raised ∧
      (c.raiseThreshold raised).years = c.years ∧ (c.raiseThreshold raised).barren = c.barren ∧
      (c.raiseThreshold raised).patience = c.patience := by
  unfold raiseThreshold
  split
  · rename_i hlt
    exact ⟨(max_eq_right hlt.le).symm, rfl, rfl, rfl⟩
  · rename_i hge
    exact ⟨(max_eq_left (not_lt.1 hge)).symm, rfl, rfl, rfl⟩

theorem barren_of_enterYears {c c' : Cascade} {found : Stamp} {next : Int} {barren left : Nat}
    (h : c.enterYears next barren left = some (found, c')) :
    barren < c'.barren ∧ c'.barren + c'.years.left ≤ barren + left ∧
      c'.patience = c.patience := by
  induction left generalizing next barren with
  | zero => simp [enterYears] at h
  | succ left ih =>
    unfold enterYears at h
    split_ifs at h with hlt hpatience
    · obtain ⟨hbarren, htotal, hkeeps⟩ := ih h
      exact ⟨hbarren, by omega, hkeeps⟩
    · split at h
      · obtain ⟨-, rfl⟩ := Prod.mk.inj (Option.some.inj h)
        exact ⟨Nat.lt_succ_self _, by simp only; omega, rfl⟩
      · obtain ⟨hbarren, htotal, hkeeps⟩ := ih h
        exact ⟨by omega, by omega, hkeeps⟩

theorem spends_step {c c' : Cascade} {found : Stamp} (h : c.step? = some (found, c')) :
    c.Spends c' := by
  unfold step? at h
  split at h
  · simp at h
  · split at h
    · rename_i hstay
      rw [Option.some.injEq] at h
      subst h
      obtain ⟨hb, hy, hp, -, -⟩ := stayInYear_keeps hstay
      exact ⟨hb.ge, by rw [hb, hy], hp⟩
    · obtain ⟨hbarren, htotal, hkeeps⟩ := barren_of_enterYears h
      exact ⟨hbarren.le, htotal, hkeeps⟩

theorem spends_next (c : Cascade) : c.Spends c.next.2 := by
  unfold next
  split
  · rename_i hs
    exact spends_step hs
  · exact ⟨Nat.le_refl _, Nat.le_refl _, rfl⟩

/-! ### Years that are counted -/

/-- Whether the years to come ascend and lie behind the current one. -/
structure Ordered (c : Cascade) : Prop where
  spans : Level.Spans (some .month) c.levels
  interval : 0 < c.years.interval
  current : ∀ p ∈ c.current, p.1 < c.years.next

theorem Ordered.instanceFound {c : Cascade} (h : c.Ordered) : c.instanceFound.Ordered :=
  ⟨h.spans, h.interval, h.current⟩

theorem Ordered.raiseThreshold {c : Cascade} (h : c.Ordered) (raised : Stamp) :
    (c.raiseThreshold raised).Ordered := by
  unfold Cascade.raiseThreshold
  split
  · exact ⟨h.spans, h.interval, h.current⟩
  · exact h

/-- The years from the threshold on up to a given one. -/
def countedTo (c : Cascade) (last : Int) (years : List Int) : Nat :=
  years.countP fun y => c.threshold.year ≤ y ∧ y ≤ last

/-- What is counted up to a year goes on behind an earlier one. -/
theorem countedTo_add (c : Cascade) {first last : Int} (h : first ≤ last) (years : List Int) :
    c.countedTo first years + c.countedTo last (years.filter (first < ·)) =
      c.countedTo last years := by
  unfold countedTo
  rw [List.countP_eq_countP_filter_add years (fun y => c.threshold.year ≤ y ∧ y ≤ last)
    (first < ·), Nat.add_comm]
  congr 1
  rw [List.countP_filter]
  refine List.countP_congr fun y _ => ?_
  simp only [decide_eq_true_eq, Bool.and_eq_true, Bool.not_eq_true', decide_eq_false_iff_not]
  omega

theorem year_of_mem_unvisited {threshold : Stamp} {levels : List Level}
    (h : Level.Spans (some .month) levels) {ps : List Position} {year : Int} {b : Stamp}
    (hb : b ∈ Level.unvisited threshold levels ps (.ofYear year)) : b.year = year := by
  have hfixed := Level.fixed_of_mem_unvisited h hb
  simpa [Stamp.fixed, Stamp.above, Stamp.ofYear] using hfixed

/-- **Entering years counts those from the threshold on**, and leaves those behind
the candidate that is found. -/
theorem years_of_enterYears {c c' : Cascade} {found : Stamp} {next : Int} {barren left : Nat}
    (hspans : Level.Spans (some .month) c.levels) (hinterval : 0 < c.years.interval)
    (h : c.enterYears next barren left = some (found, c')) :
    let years := (⟨next, c.years.interval, left⟩ : YearSteps).toList
    found.year ∈ years ∧ c.threshold.year ≤ found.year ∧
      c'.years.toList = years.filter (found.year < ·) ∧
      c'.barren = barren + c.countedTo found.year years ∧
      c'.levels = c.levels ∧ c'.threshold = c.threshold ∧ 0 < c'.years.interval ∧
      ∀ p ∈ c'.current, p.1 < c'.years.next := by
  induction left generalizing next barren with
  | zero => simp [enterYears] at h
  | succ left ih =>
    intro years
    have hyears : years = next :: (⟨next + c.years.interval, c.years.interval, left⟩ :
      YearSteps).toList := toList_cons next c.years.interval left
    have hasc : years.Pairwise (· < ·) := YearSteps.pairwise_toList hinterval
    rw [hyears] at hasc ⊢
    obtain ⟨hnext, -⟩ := List.pairwise_cons.1 hasc
    unfold enterYears at h
    split_ifs at h with hlt hpatience
    · obtain ⟨hmem, hfrom, hleft, hcount, hrest⟩ := ih h
      have hlater := hnext _ hmem
      refine ⟨List.mem_cons_of_mem _ hmem, hfrom, ?_, ?_, hrest⟩
      · rw [List.filter_cons_of_neg (by simp only [decide_eq_true_eq]; omega), hleft]
      · rw [hcount, countedTo, countedTo,
          List.countP_cons_of_neg (by simp only [decide_eq_true_eq]; omega)]
    · have hs := Level.listed_of_search c.threshold c.levels (.ofYear next)
      split at h
      · rename_i found' ps heq
        obtain ⟨rfl, rfl⟩ := Prod.mk.inj (Option.some.inj h)
        rw [heq] at hs
        have hyear : found'.year = next :=
          year_of_mem_listed hspans (show found' ∈ _ by rw [hs]; exact List.mem_cons_self)
        refine ⟨hyear ▸ List.mem_cons_self, by omega, ?_, ?_, rfl, rfl, hinterval, ?_⟩
        · rw [List.filter_cons_of_neg (by simp only [decide_eq_true_eq]; omega),
            List.filter_eq_self.2 fun y hy => by
              have := hnext y hy
              simp only [decide_eq_true_eq]
              omega]
        · rw [countedTo, List.countP_cons_of_pos (by simp only [decide_eq_true_eq]; omega),
            List.countP_eq_zero.2 fun y hy => by
              have := hnext y hy
              simp only [decide_eq_true_eq]
              omega]
        · intro p hp
          obtain rfl := Option.mem_some_iff.1 hp
          simp only
          omega
      · obtain ⟨hmem, hfrom, hleft, hcount, hrest⟩ := ih h
        have hlater := hnext _ hmem
        refine ⟨List.mem_cons_of_mem _ hmem, hfrom, ?_, ?_, hrest⟩
        · rw [List.filter_cons_of_neg (by simp only [decide_eq_true_eq]; omega), hleft]
        · rw [hcount, countedTo, countedTo,
            List.countP_cons_of_pos (by simp only [decide_eq_true_eq]; omega)]
          omega

/-- **A step counts the years from the threshold on**, up to that of the candidate
that it finds, and leaves those behind it. -/
theorem Ordered.step {c c' : Cascade} {found : Stamp} (hc : c.Ordered)
    (h : c.step? = some (found, c')) : c'.Ordered ∧ c'.threshold = c.threshold ∧
      c'.years.toList = c.years.toList.filter (found.year < ·) ∧
      c'.barren = c.barren + c.countedTo found.year c.years.toList := by
  unfold step? at h
  split at h
  · simp at h
  · split at h
    · rename_i hstay
      rw [Option.some.injEq] at h
      subst h
      unfold stayInYear at hstay
      split at hstay
      · rename_i year ps hcurrent
        obtain ⟨⟨found', ps'⟩, hresume, heq⟩ := Option.map_eq_some_iff.1 hstay
        obtain ⟨rfl, rfl⟩ := Prod.mk.inj heq
        have hr := Level.unvisited_of_resume c.threshold c.levels ps (.ofYear year)
        rw [hresume] at hr
        have hyear : found'.year = year :=
          year_of_mem_unvisited hc.spans (show found' ∈ _ by rw [hr]; exact List.mem_cons_self)
        have hfirst : year < c.years.next := hc.current (year, ps) (by rw [hcurrent]; rfl)
        have hlater : ∀ y ∈ c.years.toList, year < y := by
          intro y hy
          obtain ⟨k, -, rfl⟩ := List.mem_map.1 hy
          have := Int.mul_nonneg (Int.natCast_nonneg c.years.interval) (Int.natCast_nonneg k)
          omega
        refine ⟨⟨hc.spans, hc.interval, ?_⟩, rfl, ?_, ?_⟩
        · intro p hp
          obtain rfl := Option.mem_some_iff.1 hp
          exact hfirst
        · rw [List.filter_eq_self.2 fun y hy => by simpa [hyear] using hlater y hy]
        · rw [countedTo, List.countP_eq_zero.2 fun y hy => by
            have := hlater y hy
            simp only [decide_eq_true_eq]
            omega]
          rfl
      · simp at hstay
    · obtain ⟨-, -, hleft, hcount, hlevels, hthreshold, hinterval, hcurrent⟩ :=
        years_of_enterYears hc.spans hc.interval h
      exact ⟨⟨hlevels ▸ hc.spans, hinterval, hcurrent⟩, hthreshold, hleft, hcount⟩

/-! ### Another limit -/

theorem enterYears_withPatience {c c' : Cascade} {found : Stamp} {next : Int} {barren left : Nat}
    (h : c.enterYears next barren left = some (found, c')) {n : Nat} (hn : c'.barren ≤ n) :
    (c.withPatience n).enterYears next barren left = some (found, c'.withPatience n) := by
  induction left generalizing next barren with
  | zero => simp [enterYears] at h
  | succ left ih =>
    have hcount := (barren_of_enterYears h).1
    unfold enterYears at h ⊢
    by_cases hlt : next < c.threshold.year
    · rw [if_pos hlt] at h
      exact (if_pos hlt).trans (ih h)
    · rw [if_neg hlt] at h
      split at h
      · simp at h
      · refine (if_neg hlt).trans ((if_neg (show ¬ n < barren + 1 by omega)).trans ?_)
        rw [show Level.search (c.withPatience n).threshold (c.withPatience n).levels _ =
          Level.search c.threshold c.levels (.ofYear next) from rfl]
        cases hs : Level.search c.threshold c.levels (.ofYear next) with
        | some p =>
          rw [hs] at h
          obtain ⟨rfl, rfl⟩ := Prod.mk.inj (Option.some.inj h)
          rfl
        | none =>
          rw [hs] at h
          exact ih h

theorem stayInYear_withPatience (c : Cascade) (n : Nat) :
    (c.withPatience n).stayInYear =
      c.stayInYear.map fun (found, c') => (found, c'.withPatience n) := by
  unfold stayInYear withPatience
  cases c.current with
  | none => rfl
  | some p => simp only [Option.map_map]; rfl

/-- **A step is the same under every limit that its count is within.** -/
theorem step_withPatience {c c' : Cascade} {found : Stamp} (h : c.step? = some (found, c'))
    {n : Nat} (hn : c'.barren ≤ n) :
    (c.withPatience n).step? = some (found, c'.withPatience n) := by
  unfold step? at h ⊢
  split at h
  · simp at h
  · rename_i hfinished
    refine (if_neg hfinished).trans ?_
    rw [stayInYear_withPatience]
    cases hstay : c.stayInYear with
    | some p =>
      rw [hstay] at h
      rw [show p = (found, c') from Option.some.inj h]
      rfl
    | none =>
      rw [hstay] at h
      exact enterYears_withPatience h hn

/-- What an unhurried walk finds under another limit, it finds. -/
theorem step_of_withPatience {c c' : Cascade} {found : Stamp} (hc : c.Unhurried) {n : Nat}
    (h : (c.withPatience n).step? = some (found, c')) :
    ∃ c'', c.step? = some (found, c'') ∧ c' = c''.withPatience n := by
  have hspends := spends_step h
  refine ⟨c'.withPatience c.patience, step_withPatience h (n := c.patience) ?_, ?_⟩
  · have := hspends.total
    unfold Unhurried at hc
    simp only [withPatience] at this
    omega
  · rw [withPatience_withPatience, ← show c'.patience = n from hspends.patience,
      withPatience_self]

/-- An unhurried walk that finds nothing finds nothing under any other limit. -/
theorem step_withPatience_none {c : Cascade} (hc : c.Unhurried) (h : c.step? = none) (n : Nat) :
    (c.withPatience n).step? = none := by
  by_contra hsome
  obtain ⟨⟨found, c'⟩, hfound⟩ := Option.ne_none_iff_exists'.1 hsome
  obtain ⟨c'', hfound, -⟩ := step_of_withPatience hc hfound
  rw [h] at hfound
  exact absurd hfound (by simp)

theorem next_withPatience {c : Cascade} (hc : c.Unhurried) {n : Nat} (hn : c.next.2.barren ≤ n) :
    (c.withPatience n).next = (c.next.1, c.next.2.withPatience n) := by
  cases hs : c.step? with
  | some p =>
    obtain ⟨found, c'⟩ := p
    simp only [next, hs] at hn ⊢
    rw [step_withPatience hs hn]
  | none =>
    simp only [next, hs, step_withPatience_none hc hs]
    rfl

theorem next_some_withPatience {c c' : Cascade} {found : Stamp} (h : c.next = (some found, c'))
    {n : Nat} (hn : c'.barren ≤ n) :
    (c.withPatience n).next = (some found, c'.withPatience n) := by
  cases hs : c.step? with
  | some p =>
    simp only [next, hs, Prod.mk.injEq, Option.some.injEq] at h
    obtain ⟨rfl, rfl⟩ := h
    simp only [next, step_withPatience hs hn]
  | none => simp [next, hs] at h

end Cascade

/-! ### Positions -/

namespace PeriodSelection

variable {sel : PeriodSelection} {start s : Stamp} {taken : List Stamp} {c c' : Cascade}

theorem gather_some (h : c.next = (some s, c')) : sel.gather start taken c =
    if s.periodStart sel.frequency sel.weekStart = start then sel.gather start (s :: taken) c'
    else (taken.reverse, some s, c') := by
  conv => lhs; unfold gather
  split
  · rename_i heq
    rw [h] at heq
    obtain ⟨hs, rfl⟩ := Prod.mk.inj heq
    obtain rfl := Option.some.inj hs
    rfl
  · rename_i heq
    rw [h] at heq
    exact absurd (Prod.mk.inj heq).1 (by simp)

theorem gather_none (h : c.next = (none, c')) :
    sel.gather start taken c = (taken.reverse, none, c') := by
  unfold gather
  split
  · rename_i heq
    rw [h] at heq
    exact absurd (Prod.mk.inj heq).1 (by simp)
  · rename_i heq
    rw [h] at heq
    obtain ⟨-, rfl⟩ := Prod.mk.inj heq
    rfl

theorem next_selected {selected : List Stamp} (h : sel.selected = s :: selected) :
    sel.next c = (some s, { sel with selected }, c) := by
  unfold next
  split
  · rename_i heq
    obtain ⟨rfl, rfl⟩ := List.cons.inj (h.symm.trans heq)
    rfl
  · rename_i heq
    exact absurd (h.symm.trans heq) (by simp)

theorem next_none (hsel : sel.selected = []) (h : sel.first c = (none, c')) :
    sel.next c = (none, sel, c') := by
  unfold next
  split
  · rename_i heq
    exact absurd (hsel.symm.trans heq) (by simp)
  · split
    · rename_i heq
      obtain ⟨-, rfl⟩ := Prod.mk.inj (h.symm.trans heq)
      rfl
    · rename_i heq
      exact absurd (Prod.mk.inj (h.symm.trans heq)).1 (by simp)

theorem next_some (hsel : sel.selected = []) (h : sel.first c = (some s, c')) :
    let members := sel.gather (s.periodStart sel.frequency sel.weekStart) [s] c'
    sel.next c = next { sel with
      waiting := members.2.1, selected := atPositions sel.positions members.1 } members.2.2 := by
  intro members
  conv => lhs; unfold next
  split
  · rename_i heq
    exact absurd (hsel.symm.trans heq) (by simp)
  · split
    · rename_i heq
      exact absurd (Prod.mk.inj (h.symm.trans heq)).1 (by simp)
    · rename_i heq
      obtain ⟨hs, rfl⟩ := Prod.mk.inj (h.symm.trans heq)
      obtain rfl := Option.some.inj hs
      rfl

theorem spends_gather (sel : PeriodSelection) (start : Stamp) (taken : List Stamp) (c : Cascade) :
    c.Spends (sel.gather start taken c).2.2 := by
  fun_induction gather sel start taken c with
  | case1 taken c s c' hstep hperiod ih =>
    have hspends := c.spends_next
    rw [hstep] at hspends
    exact hspends.trans ih
  | case2 taken c s c' hstep hperiod =>
    have hspends := c.spends_next
    rwa [hstep] at hspends
  | case3 taken c c' hstep =>
    have hspends := c.spends_next
    rwa [hstep] at hspends

theorem gather_withPatience (sel : PeriodSelection) (start : Stamp) (taken : List Stamp)
    {c : Cascade} (hc : c.Unhurried) {n : Nat}
    (hn : (sel.gather start taken c).2.2.barren ≤ n) :
    sel.gather start taken (c.withPatience n) = ((sel.gather start taken c).1,
      (sel.gather start taken c).2.1, (sel.gather start taken c).2.2.withPatience n) := by
  fun_induction gather sel start taken c with
  | case1 taken c s c' hstep hperiod ih =>
    have hspends := c.spends_next
    have hlater := (sel.spends_gather start (s :: taken) c').barren
    have hnext := Cascade.next_withPatience hc (n := n) (by rw [hstep]; exact hlater.trans hn)
    rw [hstep] at hspends hnext
    rw [gather_some hnext, if_pos hperiod]
    exact ih (hspends.unhurried hc) hn
  | case2 taken c s c' hstep hperiod =>
    have hnext := Cascade.next_withPatience hc (n := n) (by rw [hstep]; exact hn)
    rw [hstep] at hnext
    rw [gather_some hnext, if_neg hperiod]
  | case3 taken c c' hstep =>
    have hnext := Cascade.next_withPatience hc (n := n) (by rw [hstep]; exact hn)
    rw [hstep] at hnext
    rw [gather_none hnext]

theorem spends_first (sel : PeriodSelection) (c : Cascade) : c.Spends (sel.first c).2 := by
  unfold first
  split
  · exact Cascade.Spends.refl c
  · exact c.spends_next

theorem first_withPatience (sel : PeriodSelection) {c : Cascade} (hc : c.Unhurried) {n : Nat}
    (hn : (sel.first c).2.barren ≤ n) :
    sel.first (c.withPatience n) = ((sel.first c).1, (sel.first c).2.withPatience n) := by
  unfold first at hn ⊢
  split
  · rfl
  · rename_i heq
    rw [heq] at hn
    exact Cascade.next_withPatience hc hn

theorem spends_next (sel : PeriodSelection) (c : Cascade) : c.Spends (sel.next c).2.2 := by
  fun_induction next sel c with
  | case1 => exact Cascade.Spends.refl _
  | case2 sel c hsel c' hfirst =>
    have hspends := sel.spends_first c
    rwa [hfirst] at hspends
  | case3 sel c hsel s c' hfirst start members ih =>
    have hspends := sel.spends_first c
    rw [hfirst] at hspends
    exact (hspends.trans (sel.spends_gather start [s] c')).trans ih

theorem next_withPatience (sel : PeriodSelection) {c : Cascade} (hc : c.Unhurried) {n : Nat}
    (hn : (sel.next c).2.2.barren ≤ n) :
    sel.next (c.withPatience n) =
      ((sel.next c).1, (sel.next c).2.1, (sel.next c).2.2.withPatience n) := by
  fun_induction next sel c with
  | case1 sel c s selected hsel => exact next_selected hsel
  | case2 sel c hsel c' hfirst =>
    have hnext := sel.first_withPatience hc (n := n) (by rw [hfirst]; exact hn)
    rw [hfirst] at hnext
    exact next_none hsel hnext
  | case3 sel c hsel s c' hfirst start members ih =>
    have hspends := sel.spends_first c
    have hgathers : c'.Spends members.2.2 := sel.spends_gather start [s] c'
    rw [hfirst] at hspends
    have hlater := (spends_next { sel with
      waiting := members.2.1, selected := atPositions sel.positions members.1 }
      members.2.2).barren
    have hgather := sel.gather_withPatience start [s] (hspends.unhurried hc) (hlater.trans hn)
    have hnext := sel.first_withPatience hc (n := n)
      (by rw [hfirst]; exact hgathers.barren.trans (hlater.trans hn))
    rw [hfirst] at hnext
    rw [next_some hsel hnext]
    simp only
    rw [hgather]
    exact ih (hgathers.unhurried (hspends.unhurried hc)) hn

end PeriodSelection

namespace Candidates

/-- The candidates with another limit of years without an instance. -/
def withPatience (c : Candidates) (n : Nat) : Candidates :=
  { c with cascade := c.cascade.withPatience n }

theorem spends_next (c : Candidates) : c.cascade.Spends c.next.2.cascade := by
  unfold next
  split
  · exact c.cascade.spends_next
  · rename_i sel hsel
    exact sel.spends_next c.cascade

/-- **The next candidate is the same under every limit that its count is within**;
with positions, if the walk is not in a hurry, since those depend on whether it
goes on. -/
theorem next_withPatience {c c' : Candidates} {found : Stamp} (h : c.next = (some found, c'))
    {n : Nat} (hn : c'.cascade.barren ≤ n) (hc : c.isSelective = true → c.cascade.Unhurried) :
    (c.withPatience n).next = (some found, c'.withPatience n) := by
  unfold next at h
  split at h
  · rename_i hsel
    obtain ⟨hfound, rfl⟩ := Prod.mk.inj h
    have hnext : c.cascade.next = (some found, c.cascade.next.2) := Prod.ext hfound rfl
    have hother := Cascade.next_some_withPatience hnext hn
    simp only [withPatience, next, hsel, hother]
    rfl
  · rename_i sel hsel
    obtain ⟨hfound, rfl⟩ := Prod.mk.inj h
    have hother := sel.next_withPatience (hc (by simp [isSelective, hsel])) hn
    simp only [withPatience, next, hsel, hother, hfound]

end Candidates

end Recurrence
