/-
# Candidates as a list

The candidates of a rule come one by one from a list: without positions that of
the walk, with positions what they pick from each of its periods
(`selectByPeriod`). Gathering a period takes it from the front of the list and
one more, which waits; nothing is lost between two periods.

Key definitions: `selectByPeriod`, `PeriodSelection.Lists`, `Candidates.Lists`,
`Candidates.nth`.
Key theorems: `mem_atPositions`, `PeriodSelection.gather_lists`, `PeriodSelection.Lists.next`,
`Candidates.Lists.nth`.
-/
import Recurrence.Expansion.Positions
import Recurrence.Proofs.Expansion.Walk

namespace Recurrence

/-! ### Positions and periods of a list -/

theorem mem_atPositions {positions : List Int} {members : List Stamp} {b : Stamp} :
    b ∈ atPositions positions members ↔ ∃ i : Nat, members[i]? = some b ∧
      ∃ p ∈ positions, p = i + 1 ∨ p = i - members.length := by
  simp only [atPositions, List.mem_filterMap, Prod.exists, List.mk_mem_zipIdx_iff_getElem?,
    Option.ite_none_right_eq_some, Option.some.injEq, List.any_eq_true, Bool.or_eq_true,
    beq_iff_eq]
  constructor
  · rintro ⟨a, i, hi, hp, rfl⟩
    exact ⟨i, hi, hp⟩
  · rintro ⟨i, hi, hp⟩
    exact ⟨b, i, hi, hp, rfl⟩

theorem atPositions_sublist (positions : List Int) (members : List Stamp) :
    List.Sublist (atPositions positions members) members := by
  have hpick : ∀ (p : Nat → Bool) (l : List Stamp) (n : Nat),
      List.Sublist ((l.zipIdx n).filterMap fun x => if p x.2 then some x.1 else none) l := by
    intro p l
    induction l with
    | nil => exact fun _ => List.Sublist.refl _
    | cons a l ih =>
      intro n
      rw [List.zipIdx_cons, List.filterMap_cons]
      split
      · exact (ih _).cons a
      · rename_i heq
        split at heq
        · rw [Option.some.injEq] at heq
          exact heq ▸ (ih _).cons_cons a
        · simp at heq
  exact hpick (fun i => positions.any fun p => p == (i : Int) + 1 || p == (i : Int) - members.length)
    members 0

/-- Whether two stamps lie in the same period. -/
def Stamp.samePeriod (frequency : Frequency) (weekStart : Weekday) (s t : Stamp) : Bool :=
  t.periodStart frequency weekStart = s.periodStart frequency weekStart

/-- What the positions pick from each period of a list. -/
def selectByPeriod (positions : List Int) (frequency : Frequency) (weekStart : Weekday) :
    List Stamp → List Stamp
  | [] => []
  | s :: rest =>
    atPositions positions (s :: rest.takeWhile (s.samePeriod frequency weekStart)) ++
      selectByPeriod positions frequency weekStart
        (rest.dropWhile (s.samePeriod frequency weekStart))
termination_by l => l.length
decreasing_by
  rw [List.length_cons, Nat.lt_succ_iff]
  exact (List.dropWhile_sublist _).length_le

theorem selectByPeriod_sublist (positions : List Int) (frequency : Frequency)
    (weekStart : Weekday) (l : List Stamp) :
    List.Sublist (selectByPeriod positions frequency weekStart l) l := by
  fun_induction selectByPeriod positions frequency weekStart l with
  | case1 => exact List.Sublist.refl _
  | case2 s rest ih =>
    have happend := (atPositions_sublist positions
      (s :: rest.takeWhile (s.samePeriod frequency weekStart))).append ih
    rwa [List.cons_append, List.takeWhile_append_dropWhile] at happend

/-! ### Gathering -/

namespace PeriodSelection

variable {sel : PeriodSelection} {c : Cascade} {l : List Stamp}

/-- **Gathering takes a period from the front of the list**, and the candidate
after it. -/
theorem gather_lists (sel : PeriodSelection) (s : Stamp) (h : c.Lists l) (taken : List Stamp) :
    ∃ c', sel.gather (s.periodStart sel.frequency sel.weekStart) taken c =
        (taken.reverse ++ l.takeWhile (s.samePeriod sel.frequency sel.weekStart),
          (l.dropWhile (s.samePeriod sel.frequency sel.weekStart)).head?, c') ∧
      c'.Lists (l.dropWhile (s.samePeriod sel.frequency sel.weekStart)).tail := by
  induction l generalizing c taken with
  | nil =>
    obtain ⟨hnone, hlists⟩ := h.next
    unfold gather
    split
    · rename_i heq
      rw [heq] at hnone
      exact absurd hnone (by simp)
    · rename_i c' heq
      rw [heq] at hlists
      exact ⟨c', by simp, hlists⟩
  | cons t l ih =>
    obtain ⟨hsome, hlists⟩ := h.next
    unfold gather
    split
    · rename_i t' c' heq
      rw [heq] at hsome hlists
      simp only [List.head?_cons, Option.some.injEq] at hsome
      subst hsome
      rw [List.tail_cons] at hlists
      split
      · rename_i hsame
        obtain ⟨c'', hgather, hrest⟩ := ih hlists (t' :: taken)
        have hp : s.samePeriod sel.frequency sel.weekStart t' = true := decide_eq_true hsame
        rw [List.takeWhile_cons_of_pos hp, List.dropWhile_cons_of_pos hp]
        exact ⟨c'', by rw [hgather]; simp, hrest⟩
      · rename_i hsame
        have hp : ¬ s.samePeriod sel.frequency sel.weekStart t' = true := by
          simpa [Stamp.samePeriod] using hsame
        rw [List.takeWhile_cons_of_neg hp, List.dropWhile_cons_of_neg hp]
        exact ⟨c', by simp, hlists⟩
    · rename_i heq
      rw [heq] at hsome
      exact absurd hsome (by simp)

/-- A selection and its walk stand for a list of candidates: those that are
selected already, and what the positions pick from the rest. -/
def Lists (sel : PeriodSelection) (c : Cascade) (l : List Stamp) : Prop :=
  ∃ rest, c.Lists rest ∧ l = sel.selected ++
    selectByPeriod sel.positions sel.frequency sel.weekStart (sel.waiting.toList ++ rest)

theorem first_lists (sel : PeriodSelection) {rest : List Stamp} (h : c.Lists rest) :
    (sel.first c).1 = (sel.waiting.toList ++ rest).head? ∧
      (sel.first c).2.Lists (sel.waiting.toList ++ rest).tail := by
  unfold first
  split
  · rename_i s hs
    simpa [hs] using h
  · rename_i hs
    simpa [hs] using h.next

/-- **The next candidate is the first one selected.** -/
theorem Lists.next (h : sel.Lists c l) :
    (sel.next c).1 = l.head? ∧ (sel.next c).2.1.Lists (sel.next c).2.2 l.tail := by
  obtain ⟨rest, hc, rfl⟩ := h
  fun_induction PeriodSelection.next sel c generalizing rest with
  | case1 sel c s selected hsel =>
    rw [hsel]
    exact ⟨rfl, rest, hc, rfl⟩
  | case2 sel c hsel c' hfirst =>
    obtain ⟨hhead, htail⟩ := first_lists sel hc
    rw [hfirst] at hhead htail
    have hnil : sel.waiting.toList ++ rest = [] := List.head?_eq_none_iff.1 hhead.symm
    rw [hnil] at htail ⊢
    rw [hsel, selectByPeriod]
    refine ⟨rfl, [], htail, ?_⟩
    rw [(List.append_eq_nil_iff.1 hnil).1, hsel, List.append_nil, selectByPeriod]
    rfl
  | case3 sel c hsel s c' hfirst start members ih =>
    obtain ⟨hhead, htail⟩ := first_lists sel hc
    rw [hfirst] at hhead htail
    obtain ⟨rest', hrest⟩ := List.head?_eq_some_iff.1 hhead.symm
    rw [hrest, List.tail_cons] at htail
    -- the period of the first candidate is gathered behind it
    obtain ⟨c'', hgather, hlists⟩ := gather_lists sel s htail [s]
    have hmembers : members = sel.gather start [s] c' := rfl
    have hwaiting : members.2.1.toList ++
        (rest'.dropWhile (s.samePeriod sel.frequency sel.weekStart)).tail =
        rest'.dropWhile (s.samePeriod sel.frequency sel.weekStart) := by
      rw [hmembers, hgather]
      cases rest'.dropWhile (s.samePeriod sel.frequency sel.weekStart) <;> rfl
    have hrec := ih _ (by rw [hmembers, hgather]; exact hlists)
    simp only [hwaiting] at hrec
    have hpicked : members.1 = s :: rest'.takeWhile (s.samePeriod sel.frequency sel.weekStart) := by
      rw [hmembers, hgather]
      rfl
    rw [hsel, hrest, List.nil_append, selectByPeriod, ← hpicked]
    exact hrec

end PeriodSelection

/-! ### Candidates -/

namespace Candidates

/-- Candidates stand for a list: that of their walk, or what their positions
pick from it. -/
def Lists (c : Candidates) (l : List Stamp) : Prop :=
  match c.selection with
  | none => c.cascade.Lists l
  | some sel => sel.Lists c.cascade l

/-- What the next call gives after `n` others. -/
def nth (c : Candidates) : Nat → Option Stamp
  | 0 => c.next.1
  | n + 1 => c.next.2.nth n

variable {c : Candidates} {l : List Stamp}

theorem Lists.next (h : c.Lists l) : c.next.1 = l.head? ∧ c.next.2.Lists l.tail := by
  unfold Lists at h
  unfold Candidates.next
  split
  · rename_i hsel
    rw [hsel] at h
    obtain ⟨hhead, htail⟩ := Cascade.Lists.next h
    refine ⟨hhead, ?_⟩
    simp only [Lists, hsel]
    exact htail
  · rename_i sel hsel
    rw [hsel] at h
    exact PeriodSelection.Lists.next h

/-- **Call by call, candidates hand out their list**, and nothing after it. -/
theorem Lists.nth (h : c.Lists l) (n : Nat) : c.nth n = l[n]? := by
  induction n generalizing c l with
  | zero => rw [Candidates.nth, h.next.1, List.head?_eq_getElem?]
  | succ n ih => rw [Candidates.nth, ih h.next.2, List.getElem?_tail]

theorem Lists.instanceFound (h : c.Lists l) : c.instanceFound.Lists l := by
  unfold Lists at h ⊢
  unfold Candidates.instanceFound
  split <;> rename_i hsel <;> rw [hsel] at h
  · exact Cascade.Lists.instanceFound h
  · obtain ⟨rest, hrest, hl⟩ := h
    exact ⟨rest, hrest.instanceFound, hl⟩

theorem Lists.raiseThreshold (h : c.Lists l) (hsel : c.isSelective = false) (raised : Stamp) :
    (c.raiseThreshold raised).Lists (l.filter (raised ≤ ·)) := by
  rw [isSelective, Option.isSome_eq_false_iff, Option.isNone_iff_eq_none] at hsel
  simp only [Lists, hsel] at h
  simp only [Lists, Candidates.raiseThreshold, hsel]
  exact Cascade.Lists.raiseThreshold h raised

end Candidates

end Recurrence
