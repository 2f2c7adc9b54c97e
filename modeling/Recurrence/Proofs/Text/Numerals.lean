/-
# Numerals

A numeral is a run of decimal digits, zeros on the left allowed, behind at most one
sign. The numbers that are read are those of numerals within the bounds of the reader.
In a given number of places a number has one run of digits.

Key definitions: `Decimal.Digits`, `Decimal.Numeral`.
Key theorems: `Decimal.signed?_eq_some_iff`, `Decimal.unsigned?_eq_some_iff`,
`Decimal.padded_value`.
-/
import Mathlib.Data.List.Basic
import Recurrence.Proofs.Text.Decimals

namespace Recurrence.Decimal

/-- Whether a text is a run of decimal digits that stand for a number. -/
structure Digits (text : List Char) (n : Nat) : Prop where
  ne_nil : text ≠ []
  isDigit : ∀ c ∈ text, c.isDigit = true
  value : value text = n

/-- Whether a text is the numeral of a number: digits behind at most one sign. -/
inductive Numeral : List Char → Int → Prop
  | plain {text : List Char} {n : Nat} (digits : Digits text n) : Numeral text n
  | plus {text : List Char} {n : Nat} (digits : Digits text n) : Numeral ('+' :: text) n
  | minus {text : List Char} {n : Nat} (digits : Digits text n) : Numeral ('-' :: text) (-n)

variable {text : List Char} {bound most n : Nat}

theorem natural?_eq_some_iff : natural? text = some n ↔ Digits text n := by
  simp only [natural?, Option.ite_none_right_eq_some, Option.some.injEq, List.all_eq_true]
  exact ⟨fun h => ⟨h.1.1, h.1.2, h.2⟩, fun h => ⟨⟨h.ne_nil, h.isDigit⟩, h.value⟩⟩

/-- Digits begin with a digit. -/
theorem Digits.not_cons {c : Char} (hc : c.isDigit = false) : ¬ Digits (c :: text) n := by
  intro h
  rw [h.isDigit c List.mem_cons_self] at hc
  exact absurd hc (by decide)

theorem numeral_minus_iff {z : Int} :
    Numeral ('-' :: text) z ↔ ∃ n, Digits text n ∧ -(n : Int) = z := by
  constructor
  · rintro (h | h | h)
    · exact absurd h (Digits.not_cons (by decide))
    · exact ⟨_, h, rfl⟩
  · rintro ⟨n, h, rfl⟩
    exact .minus h

theorem numeral_plus_iff {z : Int} :
    Numeral ('+' :: text) z ↔ ∃ n, Digits text n ∧ (n : Int) = z := by
  constructor
  · rintro (h | h | h)
    · exact absurd h (Digits.not_cons (by decide))
    · exact ⟨_, h, rfl⟩
  · rintro ⟨n, h, rfl⟩
    exact .plus h

theorem numeral_plain_iff {z : Int} (hminus : ∀ rest, text ≠ '-' :: rest)
    (hplus : ∀ rest, text ≠ '+' :: rest) :
    Numeral text z ↔ ∃ n, Digits text n ∧ (n : Int) = z := by
  constructor
  · rintro (h | h | h)
    · exact ⟨_, h, rfl⟩
    · exact absurd rfl (hplus _)
    · exact absurd rfl (hminus _)
  · rintro ⟨n, h, rfl⟩
    exact .plain h

/-- **Which signed numbers are read.** -/
theorem signed?_eq_some_iff {z : Int} :
    signed? bound text = some z ↔ Numeral text z ∧ -(bound : Int) ≤ z ∧ z < bound := by
  have hread : ∀ (digits : List Char) (f : Int → Int),
      ((natural? digits).bind fun n => some (n : Int)).map f = some z ↔
        ∃ n, Digits digits n ∧ f n = z := by
    intro digits f
    rw [Option.map_eq_some_iff]
    simp only [Option.bind_eq_some_iff, natural?_eq_some_iff, Option.some.injEq]
    constructor
    · rintro ⟨_, ⟨n, h, rfl⟩, hz⟩
      exact ⟨n, h, hz⟩
    · rintro ⟨n, h, hz⟩
      exact ⟨n, ⟨n, h, rfl⟩, hz⟩
  unfold signed?
  rw [Option.filter_eq_some_iff, decide_eq_true_eq]
  refine and_congr_left fun _ => ?_
  split
  · exact (hread _ fun n => -n).trans numeral_minus_iff.symm
  · exact (hread _ fun n => n).trans numeral_plus_iff.symm
  · rename_i hminus hplus
    exact (hread _ fun n => n).trans (numeral_plain_iff hminus hplus).symm

/-- **Which positive numbers are read.** -/
theorem unsigned?_eq_some_iff (hn : 1 ≤ n) :
    unsigned? most text = some n ↔ Numeral text n ∧ n ≤ most := by
  unfold unsigned?
  rw [Option.filter_eq_some_iff, decide_eq_true_eq]
  refine and_congr_left fun _ => ?_
  split
  · rw [natural?_eq_some_iff, numeral_plus_iff]
    simp only [Int.natCast_inj, exists_eq_right]
  · rename_i hplus
    rw [natural?_eq_some_iff]
    by_cases hminus : ∃ rest, text = '-' :: rest
    · obtain ⟨rest, rfl⟩ := hminus
      rw [numeral_minus_iff]
      refine iff_of_false (Digits.not_cons (by decide)) ?_
      rintro ⟨k, -, hk⟩
      omega
    · rw [numeral_plain_iff (fun rest heq => hminus ⟨rest, heq⟩) hplus]
      simp only [Int.natCast_inj, exists_eq_right]

/-! ### Digits in their places -/

theorem value_append_singleton (digits : List Char) (c : Char) :
    value (digits ++ [c]) = 10 * value digits + digit c := by
  rw [value, List.foldl_append]
  rfl

theorem eq_of_digit_eq {c c' : Char} (h : c.isDigit = true) (h' : c'.isDigit = true)
    (heq : digit c = digit c') : c = c' := by
  simp only [Char.isDigit, Bool.and_eq_true, decide_eq_true_eq, UInt32.le_iff_toNat_le] at h h'
  have hlow : 48 ≤ c.toNat := h.1
  have hlow' : 48 ≤ c'.toNat := h'.1
  unfold digit at heq
  exact Char.toNat_inj.1 (by omega)

/-- Runs of equally many digits tell numbers apart. -/
theorem eq_of_value_eq {digits digits' : List Char} (h : ∀ c ∈ digits, c.isDigit = true)
    (h' : ∀ c ∈ digits', c.isDigit = true) (hlength : digits.length = digits'.length)
    (hvalue : value digits = value digits') : digits = digits' := by
  induction digits using List.reverseRecOn generalizing digits' with
  | nil => exact (List.length_eq_zero_iff.1 hlength.symm).symm
  | append_singleton digits c ih =>
    obtain ⟨digits', c', rfl⟩ := (List.eq_nil_or_concat' digits').resolve_left fun hnil => by
      simp [hnil] at hlength
    simp only [List.mem_append, List.mem_singleton, or_imp, forall_and, forall_eq] at h h'
    rw [value_append_singleton, value_append_singleton] at hvalue
    have hc := digit_lt h.2
    have hc' := digit_lt h'.2
    rw [ih h.1 h'.1 (by simpa using hlength) (by omega), eq_of_digit_eq h.2 h'.2 (by omega)]

/-- **A number has one run of digits in so many places.** -/
theorem padded_value {digits : List Char} (hne : digits ≠ [])
    (h : ∀ c ∈ digits, c.isDigit = true) : padded digits.length (value digits) = digits := by
  have hlength := length_padded (List.length_pos_iff.2 hne) (value_lt (List.all_eq_true.2 h))
  exact eq_of_value_eq (fun _ => isDigit_of_mem_padded) h hlength (value_padded _ _)

end Recurrence.Decimal
