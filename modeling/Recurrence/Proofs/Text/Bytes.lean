/-
# The order of bytes

Texts are compared byte by byte, from left to right, a text that ends coming before what
goes on. For texts of ASCII that is the order of their characters. Where both texts have a
field of the same length the field decides, unless it is the same in both, and fields of
digits are in order as their numbers are.

Key definitions: `Text.bytes`.
Key theorems: `Text.bytes_lt_bytes`, `Text.append_lt_append_iff`, `Decimal.digits_lt_iff`,
`Decimal.padded_lt_padded`.
-/
import Recurrence.Proofs.Text.Numerals

namespace Recurrence

namespace Text

variable {α β : Type}

/-- The bytes of a text, encoded in UTF-8. -/
def bytes (text : String) : List UInt8 :=
  text.toByteArray.data.toList

/-! ### Bytes and characters -/

/-- A character of ASCII is one byte, its number. -/
theorem bytes_of_ascii {text : List Char} (h : ∀ c ∈ text, c.toNat < 128) :
    bytes (String.ofList text) = text.map fun c => UInt8.ofNat c.toNat := by
  rw [bytes, String.toByteArray_ofList, List.utf8Encode, List.toList_data_toByteArray,
    List.map_eq_flatMap]
  exact List.flatMap_congr fun c hc => if_pos (Nat.le_of_lt_succ (h c hc))

/-- A function that keeps the order of the items of two lists keeps the order of the lists. -/
theorem map_lt_map_iff [LT α] [LT β] {f : α → β} {as bs : List α}
    (hlt : ∀ a ∈ as, ∀ b ∈ bs, f a < f b ↔ a < b) (heq : ∀ a ∈ as, ∀ b ∈ bs, f a = f b ↔ a = b) :
    as.map f < bs.map f ↔ as < bs := by
  induction as generalizing bs with
  | nil => cases bs <;> simp
  | cons a as ih =>
    cases bs with
    | nil => simp
    | cons b bs =>
      rw [List.map_cons, List.map_cons, List.cons_lt_cons_iff, List.cons_lt_cons_iff,
        hlt a List.mem_cons_self b List.mem_cons_self,
        heq a List.mem_cons_self b List.mem_cons_self,
        ih (fun a ha b hb => hlt a (List.mem_cons_of_mem _ ha) b (List.mem_cons_of_mem _ hb))
          fun a ha b hb => heq a (List.mem_cons_of_mem _ ha) b (List.mem_cons_of_mem _ hb)]

/-- **Texts of ASCII are in the order of their characters.** -/
theorem bytes_lt_bytes {a b : List Char} (ha : ∀ c ∈ a, c.toNat < 128)
    (hb : ∀ c ∈ b, c.toNat < 128) :
    bytes (String.ofList a) < bytes (String.ofList b) ↔ a < b := by
  have hbyte : ∀ c : Char, c.toNat < 128 → (UInt8.ofNat c.toNat).toNat = c.toNat := by
    intro c hc
    rw [UInt8.toNat_ofNat']
    omega
  rw [bytes_of_ascii ha, bytes_of_ascii hb]
  apply map_lt_map_iff
  · intro c hc c' hc'
    rw [UInt8.lt_iff_toNat_lt, hbyte c (ha c hc), hbyte c' (hb c' hc')]
    rfl
  · intro c hc c' hc'
    rw [← UInt8.toNat_inj, hbyte c (ha c hc), hbyte c' (hb c' hc'), Char.toNat_inj]

/-! ### Fields of one length -/

/-- Of two fields of one length the first that differs decides. -/
theorem append_lt_append_iff [LT α] {a a' b b' : List α} (h : a.length = a'.length) :
    a ++ b < a' ++ b' ↔ a < a' ∨ a = a' ∧ b < b' := by
  induction a generalizing a' with
  | nil =>
    obtain rfl := List.length_eq_zero_iff.1 h.symm
    simp
  | cons x a ih =>
    cases a' with
    | nil => exact absurd h (by simp)
    | cons x' a' =>
      rw [List.cons_append, List.cons_append, List.cons_lt_cons_iff, List.cons_lt_cons_iff,
        ih (by simpa using h), List.cons.injEq, and_or_left, or_assoc, and_assoc]

end Text

namespace Decimal

open Text

theorem lt_iff_digit_lt {c c' : Char} (h : c.isDigit = true) (h' : c'.isDigit = true) :
    c < c' ↔ digit c < digit c' := by
  simp only [Char.isDigit, Bool.and_eq_true, decide_eq_true_eq, UInt32.le_iff_toNat_le] at h h'
  have hlow : 48 ≤ c.toNat := h.1
  have hlow' : 48 ≤ c'.toNat := h'.1
  show c.toNat < c'.toNat ↔ _
  unfold digit
  omega

/-- **Equally many digits are in the order of their numbers.** -/
theorem digits_lt_iff {digits digits' : List Char} (h : ∀ c ∈ digits, c.isDigit = true)
    (h' : ∀ c ∈ digits', c.isDigit = true) (hlength : digits.length = digits'.length) :
    digits < digits' ↔ value digits < value digits' := by
  induction digits using List.reverseRecOn generalizing digits' with
  | nil =>
    obtain rfl := List.length_eq_zero_iff.1 hlength.symm
    simp
  | append_singleton digits c ih =>
    obtain ⟨digits', c', rfl⟩ := (List.eq_nil_or_concat' digits').resolve_left fun hnil => by
      simp [hnil] at hlength
    simp only [List.mem_append, List.mem_singleton, or_imp, forall_and, forall_eq] at h h'
    have hfront : digits.length = digits'.length := by simpa using hlength
    have hc := digit_lt h.2
    have hc' := digit_lt h'.2
    have heq : digits = digits' ↔ value digits = value digits' :=
      ⟨congrArg value, eq_of_value_eq h.1 h'.1 hfront⟩
    rw [append_lt_append_iff hfront, ih h.1 h'.1 hfront, heq, List.cons_lt_cons_iff,
      lt_iff_digit_lt h.2 h'.2, value_append_singleton, value_append_singleton]
    simp only [List.not_lt_nil, and_false, or_false]
    omega

/-- Numbers written in equally many places are in order. -/
theorem padded_lt_padded {places n m : Nat}
    (h : (padded places n).length = (padded places m).length) :
    padded places n < padded places m ↔ n < m := by
  rw [digits_lt_iff (fun _ => isDigit_of_mem_padded) (fun _ => isDigit_of_mem_padded) h,
    value_padded, value_padded]

theorem padded_inj {places n m : Nat} : padded places n = padded places m ↔ n = m :=
  ⟨fun h => by rw [← value_padded places n, h, value_padded], congrArg _⟩

end Decimal

end Recurrence
