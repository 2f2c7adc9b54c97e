/-
# The orders of dates, moments and stamps

Each compares its fields from the coarsest to the finest, so each is a linear
order. Lists that ascend in it are told apart by their members, and passing
over the members before a bound leaves exactly the others.

Key definitions: the instances of `LinearOrder`.
Key theorems: `Stamp.truncate_mono`, `AscendingList.dropWhile_lt`,
`AscendingList.filter_eq_takeWhile`, `AscendingList.eq_of_mem_iff`.
-/
import Mathlib.Data.List.Sort
import Mathlib.Order.Basic
import Recurrence.Expansion.Stamp

namespace Recurrence

/-! ### Moments -/

theorem Date.lt_iff (a b : Date) : a < b ↔ a.year < b.year ∨
    a.year = b.year ∧ (a.month < b.month ∨ a.month = b.month ∧ a.day < b.day) := Iff.rfl

theorem TimeOfDay.lt_iff (a b : TimeOfDay) : a < b ↔ a.hour < b.hour ∨
    a.hour = b.hour ∧ (a.minute < b.minute ∨ a.minute = b.minute ∧ a.second < b.second) := Iff.rfl

namespace Moment

theorem lt_iff (a b : Moment) :
    a < b ↔ a.date < b.date ∨ a.date = b.date ∧ timeLt a.time b.time := Iff.rfl

theorem date_trichotomy (a b : Date) : a < b ∨ a = b ∨ b < a := by
  obtain ⟨y, m, d⟩ := a
  obtain ⟨y', m', d'⟩ := b
  simp only [Date.lt_iff, Date.mk.injEq]
  omega

theorem time_trichotomy : ∀ a b : Option TimeOfDay, timeLt a b ∨ a = b ∨ timeLt b a
  | none, none => Or.inr (Or.inl rfl)
  | none, some _ => Or.inl trivial
  | some _, none => Or.inr (Or.inr trivial)
  | some ⟨h, m, s⟩, some ⟨h', m', s'⟩ => by
    simp only [timeLt, TimeOfDay.lt_iff, Option.some.injEq, TimeOfDay.mk.injEq]
    omega

theorem timeLt_trans : ∀ {a b c : Option TimeOfDay}, timeLt a b → timeLt b c → timeLt a c
  | none, some _, some _, _, _ => trivial
  | some _, some _, some _, h, h' => by
    simp only [timeLt, TimeOfDay.lt_iff] at h h' ⊢
    omega
  | none, none, _, h, _ => h.elim
  | some _, none, _, h, _ => h.elim
  | _, some _, none, _, h => h.elim

theorem timeLt_irrefl : ∀ a : Option TimeOfDay, ¬ timeLt a a
  | none => id
  | some t => by
    simp only [timeLt, TimeOfDay.lt_iff]
    omega

theorem lt_trans' {a b c : Moment} (h : a < b) (h' : b < c) : a < c := by
  rcases h with h | ⟨he, ht⟩
  · rcases h' with h' | ⟨he', -⟩
    · refine Or.inl ?_
      simp only [Date.lt_iff] at h h' ⊢
      omega
    · exact Or.inl (he' ▸ h)
  · rcases h' with h' | ⟨he', ht'⟩
    · exact Or.inl (he ▸ h')
    · exact Or.inr ⟨he.trans he', timeLt_trans ht ht'⟩

theorem lt_irrefl' (a : Moment) : ¬ a < a := by
  rintro (h | ⟨-, h⟩)
  · simp only [Date.lt_iff] at h
    omega
  · exact timeLt_irrefl _ h

theorem lt_trichotomy' (a b : Moment) : a < b ∨ a = b ∨ b < a := by
  rcases date_trichotomy a.date b.date with hd | hd | hd
  · exact Or.inl (Or.inl hd)
  · rcases time_trichotomy a.time b.time with ht | ht | ht
    · exact Or.inl (Or.inr ⟨hd, ht⟩)
    · refine Or.inr (Or.inl ?_)
      cases a
      cases b
      simp only at hd ht
      rw [hd, ht]
    · exact Or.inr (Or.inr (Or.inr ⟨hd.symm, ht⟩))
  · exact Or.inr (Or.inr (Or.inl hd))

theorem le_iff_not_lt (a b : Moment) : a ≤ b ↔ ¬ b < a := Iff.rfl

instance : LinearOrder Moment where
  le_refl a := lt_irrefl' a
  le_trans a b c h h' hc := by
    rcases lt_trichotomy' b c with hb | rfl | hb
    · exact h (lt_trans' hb hc)
    · exact h hc
    · exact h' hb
  lt_iff_le_not_ge a b :=
    ⟨fun h => ⟨fun h' => lt_irrefl' a (lt_trans' h h'), fun h' => h' h⟩,
      fun ⟨_, h⟩ => by by_contra h'; exact h h'⟩
  le_antisymm a b h h' := by
    rcases lt_trichotomy' a b with hl | he | hl
    · exact (h' hl).elim
    · exact he
    · exact (h hl).elim
  le_total a b := by
    by_contra h
    rw [not_or] at h
    simp only [le_iff_not_lt, not_not] at h
    exact lt_irrefl' a (lt_trans' h.2 h.1)
  toDecidableLE a b := inferInstance
  toDecidableLT a b := Moment.instDecidableLt a b
  toDecidableEq := inferInstance

end Moment

/-! ### Stamps -/

namespace Stamp

theorem lt_iff (a b : Stamp) : a < b ↔ a.year < b.year ∨ a.year = b.year ∧
    (a.month < b.month ∨ a.month = b.month ∧
      (a.day < b.day ∨ a.day = b.day ∧
        (a.hour < b.hour ∨ a.hour = b.hour ∧
          (a.minute < b.minute ∨ a.minute = b.minute ∧ a.second < b.second)))) := Iff.rfl

theorem ext_iff' (a b : Stamp) : a = b ↔ a.year = b.year ∧ a.month = b.month ∧ a.day = b.day ∧
    a.hour = b.hour ∧ a.minute = b.minute ∧ a.second = b.second := by
  cases a
  cases b
  simp

instance : LE Stamp := ⟨fun a b => ¬ b < a⟩

theorem le_iff_not_lt (a b : Stamp) : a ≤ b ↔ ¬ b < a := Iff.rfl

instance : LinearOrder Stamp where
  le_refl a := by
    rw [le_iff_not_lt, lt_iff]
    omega
  le_trans a b c h h' := by
    rw [le_iff_not_lt, lt_iff] at *
    omega
  lt_iff_le_not_ge a b := by
    rw [le_iff_not_lt, le_iff_not_lt, lt_iff, lt_iff]
    omega
  le_antisymm a b h h' := by
    rw [le_iff_not_lt, lt_iff] at h h'
    rw [ext_iff']
    omega
  le_total a b := by
    rw [le_iff_not_lt, le_iff_not_lt, lt_iff, lt_iff]
    omega
  toDecidableLE a b := inferInstanceAs (Decidable (¬ b < a))
  toDecidableLT a b := Stamp.instDecidableLt a b
  toDecidableEq := inferInstance

theorem le_iff (a b : Stamp) : a ≤ b ↔ a.year < b.year ∨ a.year = b.year ∧
    (a.month < b.month ∨ a.month = b.month ∧
      (a.day < b.day ∨ a.day = b.day ∧
        (a.hour < b.hour ∨ a.hour = b.hour ∧
          (a.minute < b.minute ∨ a.minute = b.minute ∧ a.second ≤ b.second)))) := by
  rw [le_iff_not_lt, lt_iff]
  omega

/-- Cutting two stamps off at a field keeps their order. -/
theorem truncate_mono {a b : Stamp} (h : a ≤ b) (f : Field) : a.truncate f ≤ b.truncate f := by
  rw [le_iff] at *
  cases f <;> simp only [truncate, lt_self_iff_false, false_or, le_refl, and_true] <;> omega

theorem year_le_of_le {a b : Stamp} (h : a ≤ b) : a.year ≤ b.year := by
  rw [le_iff] at h
  omega

end Stamp

/-! ### Ascending lists -/

namespace AscendingList

variable {α : Type} [LinearOrder α]

/-- Passing over the members of an ascending list before a bound leaves the
others. -/
theorem dropWhile_lt {l : List α} (h : l.Pairwise (· < ·)) (d : α) :
    l.dropWhile (· < d) = l.filter (d ≤ ·) := by
  induction l with
  | nil => rfl
  | cons a l ih =>
    obtain ⟨ha, hl⟩ := List.pairwise_cons.1 h
    by_cases had : a < d
    · rw [List.dropWhile_cons_of_pos (by simpa using had), ih hl, List.filter_cons_of_neg]
      simpa using had
    · rw [List.dropWhile_cons_of_neg (by simpa using had), List.filter_eq_self.2]
      intro b hb
      have hda : d ≤ a := not_lt.1 had
      rcases List.mem_cons.1 hb with rfl | hb
      · simpa using hda
      · simpa using hda.trans (ha b hb).le

/-- In an ascending list the members with a property that passes down stand in
front. -/
theorem filter_eq_takeWhile {l : List α} (h : l.Pairwise (· < ·)) {p : α → Bool}
    (hp : ∀ a b, a < b → p b = true → p a = true) : l.filter p = l.takeWhile p := by
  induction l with
  | nil => rfl
  | cons a l ih =>
    obtain ⟨ha, hl⟩ := List.pairwise_cons.1 h
    by_cases hpa : p a = true
    · rw [List.filter_cons_of_pos hpa, List.takeWhile_cons_of_pos hpa, ih hl]
    · rw [List.filter_cons_of_neg hpa, List.takeWhile_cons_of_neg hpa, List.filter_eq_nil_iff]
      exact fun b hb hpb => hpa (hp a b (ha b hb) hpb)

theorem mem_dropWhile_lt {l : List α} (h : l.Pairwise (· < ·)) (d a : α) :
    a ∈ l.dropWhile (· < d) ↔ a ∈ l ∧ d ≤ a := by
  simp [dropWhile_lt h]

/-- The least member of an ascending list is its first. -/
theorem head?_of_least {l : List α} (h : l.Pairwise (· < ·)) {a : α} (ha : a ∈ l)
    (hmin : ∀ b ∈ l, a ≤ b) : l.head? = some a := by
  cases l with
  | nil => exact absurd ha List.not_mem_nil
  | cons b l =>
    rcases List.mem_cons.1 ha with rfl | ha
    · rfl
    · exact absurd ((List.pairwise_cons.1 h).1 a ha) (hmin b List.mem_cons_self).not_gt

/-- Among the members of an ascending list with a property there is a first. -/
theorem exists_first {l : List α} (h : l.Pairwise (· < ·)) {p : α → Prop} {a : α} (ha : a ∈ l)
    (hp : p a) : ∃ b ∈ l, p b ∧ b ≤ a ∧ ∀ c ∈ l, c < b → ¬ p c := by
  induction l with
  | nil => exact absurd ha List.not_mem_nil
  | cons b l ih =>
    obtain ⟨hb, hl⟩ := List.pairwise_cons.1 h
    have hfirst : ∀ c ∈ b :: l, ¬ c < b := by
      intro c hc
      rcases List.mem_cons.1 hc with rfl | hc
      · exact lt_irrefl _
      · exact (hb c hc).not_gt
    by_cases hpb : p b
    · exact ⟨b, List.mem_cons_self, hpb, not_lt.1 (hfirst a ha),
        fun c hc hlt => absurd hlt (hfirst c hc)⟩
    · rcases List.mem_cons.1 ha with rfl | ha
      · exact absurd hp hpb
      · obtain ⟨c, hc, hpc, hle, hnone⟩ := ih hl ha
        refine ⟨c, List.mem_cons_of_mem _ hc, hpc, hle, fun x hx hlt => ?_⟩
        rcases List.mem_cons.1 hx with rfl | hx
        · exact hpb
        · exact hnone x hx hlt

/-- Ascending lists with the same members are the same. -/
theorem eq_of_mem_iff {l l' : List α} (h : l.Pairwise (· < ·)) (h' : l'.Pairwise (· < ·))
    (hm : ∀ a, a ∈ l ↔ a ∈ l') : l = l' :=
  List.Pairwise.eq_of_mem_iff h h' hm

end AscendingList

end Recurrence
