/-
# What a selection selects

The values of a selection ascend, whatever the period. Steps give the values
whose distance from the anchor the interval divides.

Key theorems: `Steps.mem_values`, `ByList.mem_ascending`, `Selection.pairwise_values`.
-/
import Mathlib.Data.Nat.Basic
import Mathlib.Tactic.Ring
import Recurrence.Expansion.Selection
import Recurrence.Proofs.Order

namespace Recurrence

open Calendar

/-! ### Ascending numbers -/

namespace ByList

theorem mem_insert (n k : Nat) (ns : List Nat) : k ∈ insert n ns ↔ k = n ∨ k ∈ ns := by
  induction ns with
  | nil => simp [insert]
  | cons m ns ih =>
    unfold insert
    split
    · simp
    · split
      · rename_i h
        simp [h]
      · simp only [List.mem_cons, ih]
        exact or_left_comm

theorem pairwise_insert (n : Nat) {ns : List Nat} (h : ns.Pairwise (· < ·)) :
    (insert n ns).Pairwise (· < ·) := by
  induction ns with
  | nil => simp [insert]
  | cons m ns ih =>
    obtain ⟨hm, hns⟩ := List.pairwise_cons.1 h
    unfold insert
    split
    · rename_i hlt
      refine List.pairwise_cons.2 ⟨fun k hk => ?_, h⟩
      rcases List.mem_cons.1 hk with rfl | hk
      · exact hlt
      · exact Nat.lt_trans hlt (hm k hk)
    · split
      · exact h
      · refine List.pairwise_cons.2 ⟨fun k hk => ?_, ih hns⟩
        rcases (mem_insert n k ns).1 hk with rfl | hk
        · omega
        · exact hm k hk

@[simp] theorem mem_ascending (k : Nat) (ns : List Nat) : k ∈ ascending ns ↔ k ∈ ns := by
  induction ns with
  | nil => simp [ascending]
  | cons n ns ih =>
    rw [show ascending (n :: ns) = insert n (ascending ns) from rfl, mem_insert, ih,
      List.mem_cons]

theorem pairwise_ascending (ns : List Nat) : (ascending ns).Pairwise (· < ·) := by
  induction ns with
  | nil => exact List.Pairwise.nil
  | cons n ns ih => exact pairwise_insert n ih

theorem mem_daysWhere (s : Stamp) (test : Date → Bool) (k : Nat) :
    k ∈ daysWhere s test ↔
      (1 ≤ k ∧ k ≤ monthLength s.year s.month) ∧ test ⟨s.year, s.month, k⟩ = true := by
  rw [daysWhere, List.mem_filter, List.mem_range'_1]
  refine and_congr_left fun _ => ?_
  omega

theorem pairwise_daysWhere (s : Stamp) (test : Date → Bool) :
    (daysWhere s test).Pairwise (· < ·) := by
  unfold daysWhere
  exact List.Pairwise.filter _ List.pairwise_lt_range'

/-- The values of a list ascend. -/
theorem pairwise_values (list : ByList) (s : Stamp) : (list.values s).Pairwise (· < ·) := by
  cases list with
  | months | hours | minutes | seconds | monthDays | yearDays => exact pairwise_ascending _
  | weeks => exact pairwise_daysWhere s _
  | weekdays days inYear => exact pairwise_daysWhere s fun d => days.any (·.accepts inYear d)

end ByList

/-! ### Steps -/

namespace Steps

/-- A number is reached in whole steps exactly if the stride divides the way to
it. -/
theorem exists_steps_iff {stride : Int} (h : 0 < stride) {first n : Int} (hle : first ≤ n) :
    (∃ k : Nat, n = first + stride * k) ↔ stride ∣ n - first := by
  constructor
  · rintro ⟨k, hk⟩
    exact ⟨k, by omega⟩
  · rintro ⟨q, hq⟩
    have hnonneg : 0 ≤ q := by
      by_contra hneg
      have : stride * q < 0 := Int.mul_neg_of_pos_of_neg h (by omega)
      omega
    refine ⟨q.toNat, ?_⟩
    rw [Int.toNat_of_nonneg hnonneg]
    omega

theorem pairwise_progression (first : Nat) {stride : Nat} (h : 0 < stride) (last : Nat) :
    (progression first stride last).Pairwise (· < ·) := by
  unfold progression
  split
  · refine List.pairwise_map.2 (List.pairwise_lt_range.imp fun {i j} hij => ?_)
    have := Nat.mul_lt_mul_of_pos_left hij h
    omega
  · exact List.Pairwise.nil

theorem mem_progression {first stride last k : Nat} (h : 0 < stride) :
    k ∈ progression first stride last ↔ first ≤ k ∧ k ≤ last ∧ stride ∣ k - first := by
  unfold progression
  split
  · rw [List.mem_map]
    constructor
    · rintro ⟨i, hi, rfl⟩
      rw [List.mem_range, Nat.lt_succ_iff] at hi
      have hle : stride * i ≤ last - first :=
        (Nat.mul_le_mul_left stride hi).trans (Nat.mul_div_le _ _)
      refine ⟨Nat.le_add_right _ _, by omega, ?_⟩
      rw [Nat.add_sub_cancel_left]
      exact Nat.dvd_mul_right _ _
    · rintro ⟨hlow, hhigh, i, hi⟩
      refine ⟨i, List.mem_range.2 (Nat.lt_succ_iff.2 ?_), by omega⟩
      rw [Nat.le_div_iff_mul_le h, Nat.mul_comm, ← hi]
      omega
  · rename_i hlt
    simp only [List.not_mem_nil, false_iff]
    omega

theorem stride_pos (steps : Steps) : 0 < steps.stride := by
  unfold stride
  omega

theorem stride_of_pos (field : Field) {interval : Nat} (h : 0 < interval) (anchor : Stamp) :
    (⟨field, interval, anchor⟩ : Steps).stride = interval :=
  Nat.max_eq_left h

/-- **Steps are counted from the anchor.** A value of a period is one of the
steps if the stride divides its distance from the anchor. -/
theorem mem_values (steps : Steps) (s : Stamp) (k : Nat) :
    k ∈ steps.values s ↔ (lowest steps.field ≤ k ∧ k ≤ highest steps.field s) ∧
      (steps.stride : Int) ∣ steps.distance s + (k - lowest steps.field) := by
  have hpos : (0 : Int) < steps.stride := Int.natCast_pos.2 steps.stride_pos
  have hlow := Int.emod_nonneg (-steps.distance s) hpos.ne'
  have hhigh := Int.emod_lt_of_pos (-steps.distance s) hpos
  have hdiv := Int.emod_add_mul_ediv (-steps.distance s) steps.stride
  rw [values, mem_progression steps.stride_pos]
  generalize lowest steps.field = low at *
  generalize highest steps.field s = high at *
  generalize steps.distance s = distance at *
  generalize -distance / (steps.stride : Int) = q at hdiv
  obtain ⟨r, hr⟩ := Int.eq_ofNat_of_zero_le hlow
  rw [hr] at hdiv hhigh ⊢
  rw [Int.toNat_natCast]
  generalize steps.stride = stride at *
  constructor
  · rintro ⟨hfirst, hlast, i, hi⟩
    refine ⟨by omega, i - q, ?_⟩
    have : (k : Int) = low + r + stride * i := by
      have := congrArg (fun n : Nat => (n : Int)) hi
      push_cast [Nat.cast_sub hfirst] at this
      omega
    rw [this, Int.mul_sub]
    omega
  · rintro ⟨⟨hfirst, hlast⟩, i, hi⟩
    have hk : (k : Int) - low - r = stride * (i + q) := by
      rw [Int.mul_add]
      omega
    -- a value before the first step would lie less than a stride before it
    have hnonneg : 0 ≤ i + q := by
      by_contra hneg
      have : (stride : Int) * (i + q) ≤ stride * (-1) :=
        Int.mul_le_mul_of_nonneg_left (by omega) (by omega)
      omega
    have hge : (0 : Int) ≤ stride * (i + q) := Int.mul_nonneg hpos.le hnonneg
    have hcast : ((stride * (i + q).toNat : Nat) : Int) = stride * (i + q) := by
      rw [Nat.cast_mul, Int.toNat_of_nonneg hnonneg]
    exact ⟨by omega, hlast, (i + q).toNat, by omega⟩

end Steps

/-- The values of a selection ascend. -/
theorem Selection.pairwise_values (selection : Selection) (s : Stamp) :
    (selection.values s).Pairwise (· < ·) := by
  cases selection with
  | steps steps => exact Steps.pairwise_progression _ steps.stride_pos _
  | list list => exact list.pairwise_values s

end Recurrence
