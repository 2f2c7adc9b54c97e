/-
# Numbers and their digits

The digits of a number stand for it, with zeros on the left or without, and so does
the number with its sign. A number is written in as many places as are wanted when
it has no more digits than that.

Key theorems: `Decimal.natural?_padded`, `Decimal.length_padded`, `Decimal.unsigned?_padded`,
`Decimal.signed?_integer`.
-/
import Mathlib.Algebra.Group.Nat.Defs
import Mathlib.Data.List.Induction
import Mathlib.Data.Nat.Basic
import Recurrence.Text.Decimal

namespace Recurrence.Decimal

theorem isDigit_of_mem_padded {places n : Nat} {c : Char} (h : c ∈ padded places n) :
    c.isDigit = true := by
  rcases List.mem_append.1 h with h | h
  · rw [(List.mem_replicate.1 h).2]
    decide
  · exact Nat.isDigit_of_mem_toDigits (by decide) (by decide) h

theorem padded_ne_nil (places n : Nat) : padded places n ≠ [] :=
  List.append_ne_nil_of_right_ne_nil _ Nat.toDigits_ne_nil

/-- Zeros on the left do not count. -/
theorem value_padded (places n : Nat) : value (padded places n) = n := by
  have hzeros : ∀ k, value (List.replicate k '0') = 0 := by
    intro k
    induction k with
    | zero => rfl
    | succ k ih => exact ih
  show (List.replicate _ '0' ++ Nat.toDigits 10 n).foldl _ 0 = n
  rw [List.foldl_append]
  exact (congrArg _ (hzeros _)).trans (Nat.ofDigitChars_toDigits (by decide) (by decide))

theorem digit_lt {c : Char} (h : c.isDigit = true) : digit c < 10 := by
  simp only [Char.isDigit, Bool.and_eq_true, decide_eq_true_eq, UInt32.le_iff_toNat_le] at h
  have hhigh : c.toNat ≤ 57 := h.2
  unfold digit
  omega

/-- So many digits stand for a number below that power of ten. -/
theorem value_lt {digits : List Char} (h : digits.all Char.isDigit = true) :
    value digits < 10 ^ digits.length := by
  induction digits using List.reverseRecOn with
  | nil => exact Nat.one_pos
  | append_singleton digits c ih =>
    rw [List.all_append, Bool.and_eq_true, List.all_cons, List.all_nil, Bool.and_true] at h
    have hc := digit_lt h.2
    have := ih h.1
    rw [value, List.foldl_append, List.length_append, List.length_singleton, Nat.pow_succ]
    show 10 * value digits + digit c < _
    omega

/-- **A number is read from its digits.** -/
theorem natural?_padded (places n : Nat) : natural? (padded places n) = some n := by
  have hall : (padded places n).all Char.isDigit = true :=
    List.all_eq_true.2 fun _ => isDigit_of_mem_padded
  rw [natural?, if_pos ⟨padded_ne_nil places n, hall⟩, value_padded]

theorem length_padded {places n : Nat} (hpos : 0 < places) (h : n < 10 ^ places) :
    (padded places n).length = places := by
  have hdigits := (Nat.length_toDigits_le_iff (b := 10) (by decide) hpos).2 h
  simp only [padded, List.length_append, List.length_replicate]
  omega

/-- Digits begin with no sign. -/
theorem padded_cons (places n : Nat) :
    ∃ c rest, padded places n = c :: rest ∧ c ≠ '-' ∧ c ≠ '+' := by
  obtain ⟨c, rest, h⟩ := List.exists_cons_of_ne_nil (padded_ne_nil places n)
  have hdigit : c.isDigit = true := isDigit_of_mem_padded (h ▸ List.mem_cons_self)
  refine ⟨c, rest, h, ?_, ?_⟩ <;>
  · rintro rfl
    exact absurd hdigit (by decide)

theorem unsigned?_padded {places n most : Nat} (h : n ≤ most) :
    unsigned? most (padded places n) = some n := by
  obtain ⟨c, rest, heq, -, hplus⟩ := padded_cons places n
  have hplain : unsigned? most (padded places n) =
      (natural? (padded places n)).filter (· ≤ most) := by
    rw [heq]
    unfold unsigned?
    split
    · rename_i heq
      exact absurd (List.cons.inj heq).1 hplus
    · rfl
  rw [hplain, natural?_padded]
  simp [h]

/-- A number within the bounds passes them. -/
theorem signed?_of_digits {bound : Nat} {n : Int} {text : List Char}
    (h : -(bound : Int) ≤ n ∧ n < bound)
    (htext : signed? bound text = (some n).filter fun n => -(bound : Int) ≤ n ∧ n < bound) :
    signed? bound text = some n := by
  rw [htext]
  simp [h]

/-- **A number is read from its sign and its digits.** -/
theorem signed?_integer {bound : Nat} {n : Int} (h : -(bound : Int) ≤ n ∧ n < bound) :
    signed? bound (integer n).toList = some n := by
  refine signed?_of_digits h ?_
  obtain ⟨k, hk⟩ : ∃ k : Nat, n.natAbs = k := ⟨_, rfl⟩
  have hdigits := natural?_padded 0 k
  rw [integer, String.toList_ofList, hk]
  by_cases hneg : n < 0
  · obtain rfl : n = -(k : Int) := by omega
    simp only [if_pos hneg, signed?, hdigits]
    rfl
  · obtain ⟨c, rest, heq, hminus, hplus⟩ := padded_cons 0 k
    obtain rfl : n = (k : Int) := by omega
    rw [if_neg hneg]
    rw [heq] at hdigits ⊢
    unfold signed?
    split
    · rename_i heq
      exact absurd (List.cons.inj heq).1 hminus
    · rename_i heq
      exact absurd (List.cons.inj heq).1 hplus
    · rw [hdigits]
      rfl

end Recurrence.Decimal
