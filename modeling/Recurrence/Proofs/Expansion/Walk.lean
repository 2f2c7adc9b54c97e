/-
# The walk takes the list

A walk through the cascade that is never given up stands for the list of its
candidates: each step takes the head, and when the list is empty every further
step finds nothing. A walk is not given up as long as the years that are left
do not exceed the patience that is left (`Cascade.Lists.patience`), which no
step changes for the worse. Raising the threshold takes from the list what lies
before it.

Key definitions: `Cascade.Lists`.
Key theorems: `YearSteps.mem_of`, `Cascade.mem_ofYears`, `Cascade.Lists.next`,
`Cascade.Lists.raiseThreshold`.
-/
import Recurrence.Proofs.Expansion.Listing

namespace Recurrence

/-! ### Years -/

namespace YearSteps

theorem pairwise_toList {years : YearSteps} (h : 0 < years.interval) :
    years.toList.Pairwise (· < ·) := by
  rw [toList, List.pairwise_map]
  refine List.pairwise_lt_range.imp fun {i j} hij => ?_
  have : (years.interval : Int) * i < years.interval * j :=
    Int.mul_lt_mul_of_pos_left (Int.ofNat_lt.2 hij) (Int.natCast_pos.2 h)
  omega

/-- The years of an interval are those whose distance from the first one it
divides. -/
theorem mem_of (first : Int) (interval : Nat) (last y : Int) :
    y ∈ (of first interval last).toList ↔
      (first ≤ y ∧ y ≤ last) ∧ ((max interval 1 : Nat) : Int) ∣ y - first := by
  have hpos : 0 < ((max interval 1 : Nat) : Int) := by omega
  simp only [toList, of, List.mem_map, List.mem_range]
  generalize ((max interval 1 : Nat) : Int) = stride at *
  have hdiv (k : Nat) : (k : Int) ≤ (last - first) / stride ↔ stride * k ≤ last - first := by
    rw [Int.le_ediv_iff_mul_le hpos, Int.mul_comm]
  constructor
  · rintro ⟨k, hk, rfl⟩
    have hstep := Int.mul_nonneg hpos.le (Int.natCast_nonneg k)
    split at hk
    · rename_i hle
      have hnonneg := Int.ediv_nonneg (show 0 ≤ last - first by omega) hpos.le
      have hk' := (hdiv k).1 (by omega)
      exact ⟨by omega, (Steps.exists_steps_iff hpos (by omega)).1 ⟨k, rfl⟩⟩
    · omega
  · rintro ⟨⟨hfirst, hlast⟩, hdvd⟩
    obtain ⟨k, rfl⟩ := (Steps.exists_steps_iff hpos hfirst).2 hdvd
    have hk := (hdiv k).2 (by omega)
    refine ⟨k, ?_, rfl⟩
    rw [if_pos (by omega)]
    omega

theorem left_of_le (first : Int) (interval : Nat) (last : Int) :
    ((of first interval last).left : Int) ≤ max (last - first + 1) 0 := by
  have hpos : 0 < ((max interval 1 : Nat) : Int) := by omega
  simp only [of]
  generalize ((max interval 1 : Nat) : Int) = stride at *
  split
  · have := Int.ediv_le_self stride (show 0 ≤ last - first by omega)
    have := Int.ediv_nonneg (show 0 ≤ last - first by omega) hpos.le
    omega
  · omega

end YearSteps

namespace Cascade

/-! ### The candidates of some years -/

theorem year_of_mem_listed {threshold : Stamp} {levels : List Level}
    (h : Level.Spans (some .month) levels) {year : Int} {b : Stamp}
    (hb : b ∈ Level.listed threshold levels (.ofYear year)) : b.year = year := by
  have hfixed := Level.fixed_of_mem_listed h hb
  simpa [Stamp.fixed, Stamp.above, Stamp.ofYear] using hfixed

theorem mem_ofYears (threshold : Stamp) {levels : List Level}
    (h : Level.Spans (some .month) levels) (years : List Int) (b : Stamp) :
    b ∈ ofYears threshold levels years ↔
      b.year ∈ years ∧ threshold ≤ b ∧ ∀ level ∈ levels, level.Takes b := by
  have hfixed : ∀ year, b.fixed (some .month) = (Stamp.ofYear year).fixed (some .month) ↔
      b.year = year := by
    intro year
    simp [Stamp.fixed, Stamp.above, Stamp.ofYear]
  simp only [ofYears, List.mem_flatMap]
  constructor
  · rintro ⟨year, hyear, hb⟩
    split at hb
    · exact absurd hb List.not_mem_nil
    · obtain ⟨hy, hlevels⟩ := (Level.mem_listed threshold h _ _).1 hb
      rw [hfixed] at hy
      have hself := Level.listed_raise (le_refl threshold) h (.ofYear year)
      rw [hself, List.mem_filter] at hb
      exact ⟨hy ▸ hyear, by simpa using hb.2, fun level hl => (hlevels level hl).1⟩
  · rintro ⟨hyear, hle, hlevels⟩
    refine ⟨b.year, hyear, ?_⟩
    rw [if_neg (not_lt.2 (Stamp.year_le_of_le hle)), Level.mem_listed threshold h, hfixed]
    exact ⟨rfl, fun level hl => ⟨hlevels level hl, Stamp.truncate_mono hle _⟩⟩

/-- **The candidates of ascending years ascend.** -/
theorem pairwise_ofYears (threshold : Stamp) {levels : List Level}
    (h : Level.Spans (some .month) levels) {years : List Int} (hyears : years.Pairwise (· < ·)) :
    (ofYears threshold levels years).Pairwise (· < ·) := by
  have hyear : ∀ year, ∀ b ∈ (if year < threshold.year then [] else
      Level.listed threshold levels (.ofYear year)), b.year = year := by
    intro year b hb
    split at hb
    · exact absurd hb List.not_mem_nil
    · exact year_of_mem_listed h hb
  rw [ofYears, List.pairwise_flatMap]
  constructor
  · intro year _
    split
    · exact List.Pairwise.nil
    · exact Level.pairwise_listed threshold h _
  · refine hyears.imp fun {y z} hlt a ha b hb => ?_
    rw [Stamp.lt_iff, hyear y a ha, hyear z b hb]
    exact Or.inl hlt

theorem ofYears_raise {threshold raised : Stamp} (hle : threshold ≤ raised) {levels : List Level}
    (h : Level.Spans (some .month) levels) (years : List Int) :
    ofYears raised levels years = (ofYears threshold levels years).filter (raised ≤ ·) := by
  rw [ofYears, ofYears, List.filter_flatMap]
  refine List.flatMap_congr fun year _ => ?_
  have := Stamp.year_le_of_le hle
  by_cases hraised : year < raised.year
  · rw [if_pos hraised]
    split
    · rfl
    · refine (List.filter_eq_nil_iff.2 fun b hb => ?_).symm
      have hy := year_of_mem_listed h hb
      simp only [decide_eq_true_eq, not_le]
      exact Or.inl (hy ▸ hraised)
  · rw [if_neg hraised, if_neg (by omega)]
    exact Level.listed_raise hle h _

/-! ### A walk and its list -/

/-- A walk stands for a list of candidates: they are what it has still to
visit, and the years that are left do not exhaust its patience. -/
structure Lists (c : Cascade) (l : List Stamp) : Prop where
  spans : Level.Spans (some .month) c.levels
  pending : c.pending = l
  patience : c.barren + c.years.left ≤ c.patience
  finished : c.finished = true → l = []

theorem enterYears_eq_none {c : Cascade} {next : Int} {barren left : Nat}
    (hpatience : barren + left ≤ c.patience) (h : c.enterYears next barren left = none) :
    ofYears c.threshold c.levels (⟨next, c.years.interval, left⟩ : YearSteps).toList = [] := by
  induction left generalizing next barren with
  | zero => rfl
  | succ left ih =>
    rw [toList_cons]
    unfold enterYears at h
    split at h
    · rename_i hlt
      simpa [ofYears, hlt] using ih (by omega) h
    · rename_i hge
      rw [if_neg (by omega)] at h
      have hs := Level.listed_of_search c.threshold c.levels (.ofYear next)
      split at h
      · simp at h
      · rename_i heq
        rw [heq] at hs
        unfold Level.Finds at hs
        simpa [ofYears, hge, hs] using ih (by omega) h

/-- Entering a year spends one year and one of those that may be barren. -/
theorem enterYears_keeps {c c' : Cascade} {found : Stamp} {next : Int} {barren left : Nat}
    (hpatience : barren + left ≤ c.patience)
    (h : c.enterYears next barren left = some (found, c')) :
    c'.barren + c'.years.left ≤ c'.patience ∧ c'.levels = c.levels ∧ c'.finished = c.finished := by
  induction left generalizing next barren with
  | zero => simp [enterYears] at h
  | succ left ih =>
    unfold enterYears at h
    split at h
    · exact ih (by omega) h
    · rw [if_neg (by omega)] at h
      split at h
      · simp only [Option.some.injEq, Prod.mk.injEq] at h
        obtain ⟨-, rfl⟩ := h
        exact ⟨by simp only; omega, rfl, rfl⟩
      · exact ih (by omega) h

theorem stayInYear_keeps {c c' : Cascade} {found : Stamp}
    (h : c.stayInYear = some (found, c')) : c'.barren = c.barren ∧ c'.years = c.years ∧
      c'.patience = c.patience ∧ c'.levels = c.levels ∧ c'.finished = c.finished := by
  unfold stayInYear at h
  split at h
  · obtain ⟨⟨found', ps'⟩, -, heq⟩ := Option.map_eq_some_iff.1 h
    simp only [Prod.mk.injEq] at heq
    obtain ⟨-, rfl⟩ := heq
    exact ⟨rfl, rfl, rfl, rfl, rfl⟩
  · simp at h

namespace Lists

variable {c : Cascade} {l : List Stamp}

theorem step_keeps {c' : Cascade} {found : Stamp} (h : c.Lists l)
    (hs : c.step? = some (found, c')) : ∃ rest, l = found :: rest ∧ c'.Lists rest := by
  have hpending := pending_of_step hs
  refine ⟨c'.pending, h.pending ▸ hpending, ?_⟩
  unfold step? at hs
  split at hs
  · simp at hs
  · rename_i hfinished
    split at hs
    · rename_i hstay
      rw [Option.some.injEq] at hs
      subst hs
      obtain ⟨hb, hy, hp, hl, hf⟩ := stayInYear_keeps hstay
      exact ⟨hl ▸ h.spans, rfl, by rw [hb, hy, hp]; exact h.patience,
        fun hfin => absurd (hf ▸ hfin) hfinished⟩
    · obtain ⟨hp, hl, hf⟩ := enterYears_keeps h.patience hs
      exact ⟨hl ▸ h.spans, rfl, hp, fun hfin => absurd (hf ▸ hfin) hfinished⟩

theorem step_nil (h : c.Lists l) (hs : c.step? = none) : l = [] := by
  unfold step? at hs
  split at hs
  · rename_i hfinished
    exact h.finished hfinished
  · split at hs
    · simp at hs
    · rename_i hstay
      have hyears := enterYears_eq_none h.patience hs
      rw [← h.pending, Cascade.pending, hyears, List.append_nil]
      unfold stayInYear at hstay
      split
      · rename_i year ps hcur
        have hr := Level.unvisited_of_resume c.threshold c.levels ps (.ofYear year)
        simp only [hcur, Option.map_eq_none_iff] at hstay
        rw [hstay] at hr
        exact hr
      · rfl

/-- **A step takes the first candidate**, and finds nothing when there is
none. -/
theorem next (h : c.Lists l) : c.next.1 = l.head? ∧ c.next.2.Lists l.tail := by
  unfold Cascade.next
  split
  · rename_i found c' hs
    obtain ⟨rest, rfl, hrest⟩ := h.step_keeps hs
    exact ⟨rfl, hrest⟩
  · rename_i hs
    obtain rfl := h.step_nil hs
    exact ⟨rfl, h.spans, h.pending, h.patience, fun _ => rfl⟩

theorem instanceFound (h : c.Lists l) : c.instanceFound.Lists l :=
  ⟨h.spans, h.pending, by
    have := h.patience
    simp only [Cascade.instanceFound]
    omega, h.finished⟩

/-- **Raising the threshold passes over the candidates before it** and over
nothing else. -/
theorem raiseThreshold (h : c.Lists l) (raised : Stamp) :
    (c.raiseThreshold raised).Lists (l.filter (raised ≤ ·)) := by
  have hraise : ∀ {raised}, c.threshold ≤ raised →
      ({ c with threshold := raised } : Cascade).pending = l.filter (raised ≤ ·) := by
    intro raised hle
    rw [← h.pending]
    simp only [Cascade.pending, List.filter_append, ofYears_raise hle h.spans]
    congr 1
    split
    · exact Level.unvisited_raise hle h.spans _ _
    · rfl
  unfold Cascade.raiseThreshold
  split
  · rename_i hlt
    exact ⟨h.spans, hraise hlt.le, h.patience, fun hf => by rw [h.finished hf, List.filter_nil]⟩
  · rename_i hge
    -- everything in the list is at or after the threshold there is
    have hself : l = l.filter (c.threshold ≤ ·) := by
      rw [← hraise (le_refl _), ← h.pending]
    have hl : l.filter (raised ≤ ·) = l := by
      refine List.filter_eq_self.2 fun b hb => ?_
      rw [hself, List.mem_filter] at hb
      simpa using (not_lt.1 hge).trans (by simpa using hb.2)
    rwa [hl]

end Lists

end Cascade

end Recurrence
