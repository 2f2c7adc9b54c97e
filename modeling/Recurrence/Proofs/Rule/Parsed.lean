/-
# Rules that are read lie in their ranges

Every value of a rule lies in the range of its field (`RulePart.InRange`), since no other
value belongs to the grammar of its key, and a field that no part gives has a value in
its range, so a rule that is read is one that the theory of its candidates is about.

Key definitions: `RulePart.InRange`.
Key theorems: `RulePart.inRange_of_says`, `Rule.inRange_of_read`.
-/
import Recurrence.Proofs.Rule.Grammar
import Recurrence.Proofs.Rule.Ranges

namespace Recurrence

open Reading

namespace RulePart

/-- Whether a value lies in the range of its field. -/
def InRange : RulePart → Prop
  | finish bound => ∀ n, bound ≠ .count n
  | count n => 1 ≤ n ∧ n ≤ UInt32.size - 1
  | interval n => 1 ≤ n ∧ n ≤ UInt32.size - 1
  | byDay days => ∀ entry ∈ days, -53 ≤ entry.number ∧ entry.number ≤ 53
  | byMonth months => ∀ n ∈ months, 1 ≤ n ∧ n ≤ 12
  | byMonthDay days => ∀ n ∈ days, 1 ≤ n.natAbs ∧ n.natAbs ≤ 31
  | byWeekNo weeks => ∀ n ∈ weeks, 1 ≤ n.natAbs ∧ n.natAbs ≤ 53
  | byYearDay days => ∀ n ∈ days, 1 ≤ n.natAbs ∧ n.natAbs ≤ 366
  | byHour hours => ∀ n ∈ hours, n ≤ 23
  | byMinute minutes => ∀ n ∈ minutes, n ≤ 59
  | bySecond seconds => ∀ n ∈ seconds, n ≤ 60
  | bySetPos positions => ∀ n ∈ positions, 1 ≤ n.natAbs ∧ n.natAbs ≤ 366
  | freq _ | wkst _ => True

/-- What holds of everything that an item may spell holds of what is listed. -/
theorem forall_mem_of_lists {α : Type} {spells : List Char → α → Prop} {value : List Char}
    {as : List α} {p : α → Prop} (h : Lists spells value as)
    (hp : ∀ text a, spells text a → p a) : ∀ a ∈ as, p a :=
  forall_mem_of_forall₂ h.flip fun _ _ hs => hp _ _ hs

/-- **What a value says lies in the range of its field.** -/
theorem inRange_of_says {value : List Char} {part : RulePart} (h : part.Says value) :
    part.InRange := by
  have hin : ∀ {low high : Nat} {ns : List Nat}, Lists (SpellsIn low high) value ns →
      ∀ n ∈ ns, low ≤ n ∧ n ≤ high :=
    fun h => forall_mem_of_lists h fun _ _ hn => hn.2
  have hwithin : ∀ {high : Nat} {ns : List Int}, Lists (SpellsWithin high) value ns →
      ∀ n ∈ ns, 1 ≤ n.natAbs ∧ n.natAbs ≤ high :=
    fun h => forall_mem_of_lists h fun _ _ hn => hn.2
  cases part with
  | freq | wkst => trivial
  | finish bound =>
    rintro n rfl
    exact h
  | count | interval => exact h.2
  | byDay => exact forall_mem_of_lists h fun _ _ hday => hday.range
  | byMonth => exact hin h
  | byHour | byMinute | bySecond => exact fun n hn => (hin h n hn).2
  | byMonthDay | byWeekNo | byYearDay | bySetPos => exact hwithin h

theorem inRange_of_read {text : List Char} {part : RulePart} (h : read text = .ok (some part)) :
    part.InRange := by
  obtain ⟨_, _, _, _, _, hsays⟩ := read_eq_some_iff.1 h
  exact inRange_of_says hsays

end RulePart

namespace Rule

theorem inRange_of_readPartsAfter {whole : String} {seen : List RuleKey} {texts : List (List Char)}
    {parts : List RulePart} (h : readPartsAfter whole seen texts = .ok parts) :
    ∀ part ∈ parts, part.InRange := by
  induction texts generalizing seen parts with
  | nil =>
    obtain rfl := Except.ok.inj h
    exact fun _ hpart => absurd hpart List.not_mem_nil
  | cons text texts ih =>
    unfold readPartsAfter at h
    split at h
    · exact ih h
    · obtain ⟨part?, hread, h⟩ := bind_eq_ok.1 h
      cases part? with
      | none => exact ih h
      | some part =>
        simp only [ite_throw_eq_ok, bind_eq_ok, pure_eq_ok] at h
        obtain ⟨-, rest, hrest, rfl⟩ := h
        exact List.forall_mem_cons.2 ⟨RulePart.inRange_of_read hread, ih hrest⟩

/-- A field has a property when the parts that give it and its default do. -/
theorem valueOr_of_parts {α : Type} {Q : α → Prop} {other : α} {select : RulePart → Option α}
    {parts : List RulePart} (hother : Q other)
    (hparts : ∀ part ∈ parts, ∀ a, select part = some a → Q a) :
    Q (valueOr other select parts) := by
  unfold valueOr
  cases hfound : parts.findSome? select with
  | none => exact hother
  | some a =>
    obtain ⟨part, hpart, hselect⟩ := List.exists_of_findSome?_eq_some hfound
    exact hparts part hpart a hselect

/-- A field that one kind of part gives is in its range when these parts and its
default are. -/
theorem inRange_valueOr {α : Type} {other : α} {select : RulePart → Option α}
    {parts : List RulePart} (kind : α → RulePart)
    (hkind : ∀ part a, select part = some a → part = kind a) (hother : (kind other).InRange)
    (h : ∀ part ∈ parts, part.InRange) : (kind (valueOr other select parts)).InRange :=
  valueOr_of_parts (Q := fun a => (kind a).InRange) hother fun part hpart a ha =>
    hkind part a ha ▸ h part hpart

theorem inRange_withParts (frequency : Frequency) {parts : List RulePart}
    (h : ∀ part ∈ parts, part.InRange) : (withParts frequency parts).InRange where
  interval := inRange_valueOr .interval (by rintro ⟨⟩ <;> simp) (show 1 ≤ 1 ∧ _ by decide) h
  count := by
    refine valueOr_of_parts
      (Q := fun bound => ∀ n, bound = Finish.count n → 1 ≤ n ∧ n ≤ UInt32.size - 1)
      (fun n => Finish.noConfusion) fun part hpart bound hbound n hn => ?_
    subst hn
    cases part <;> simp only [Option.some.injEq, reduceCtorEq] at hbound
    case finish => exact absurd hbound (h _ hpart n)
    case count => exact Finish.count.inj hbound ▸ h _ hpart
  byDay := inRange_valueOr .byDay (by rintro ⟨⟩ <;> simp) (by simp [RulePart.InRange]) h
  byMonth := inRange_valueOr .byMonth (by rintro ⟨⟩ <;> simp) (by simp [RulePart.InRange]) h
  byMonthDay := inRange_valueOr .byMonthDay (by rintro ⟨⟩ <;> simp) (by simp [RulePart.InRange]) h
  byWeekNo := inRange_valueOr .byWeekNo (by rintro ⟨⟩ <;> simp) (by simp [RulePart.InRange]) h
  byYearDay := inRange_valueOr .byYearDay (by rintro ⟨⟩ <;> simp) (by simp [RulePart.InRange]) h
  byHour := inRange_valueOr .byHour (by rintro ⟨⟩ <;> simp) (by simp [RulePart.InRange]) h
  byMinute := inRange_valueOr .byMinute (by rintro ⟨⟩ <;> simp) (by simp [RulePart.InRange]) h
  bySecond := inRange_valueOr .bySecond (by rintro ⟨⟩ <;> simp) (by simp [RulePart.InRange]) h
  bySetPos := inRange_valueOr .bySetPos (by rintro ⟨⟩ <;> simp) (by simp [RulePart.InRange]) h

/-- **A rule that is read lies in its ranges.** -/
theorem inRange_of_read {text : String} {rule : Rule} (h : read text = .ok rule) :
    rule.InRange := by
  unfold read at h
  rw [inProduction_eq_ok] at h
  obtain ⟨parts, hparts, h⟩ := bind_eq_ok.1 h
  rw [bare_eq_ok, ofParts] at h
  split at h
  · exact absurd h (by simp)
  · split at h
    · obtain rfl := Except.ok.inj h
      exact inRange_withParts _ (inRange_of_readPartsAfter hparts)
    · exact absurd h (by simp)

end Rule

end Recurrence
