/-
# The grammar of rule parts

Every key has values of its own: the name of a frequency, a date text, a number from 1
on, the code of a weekday, or a list of numbers or weekdays in the range of the key,
separated by commas. Around numbers, codes and dates stand any blanks, and no letter
depends on its case. A part that is read gives the value of a known key or is an
extension; which values and parts these are is said here without the reader.

Key definitions: `RulePart.Says`, `RulePart.GivenBy`, `RulePart.IsExtension`.
Key theorems: `RulePart.readValue_eq_ok_iff`, `RulePart.read_eq_some_iff`,
`RulePart.read_eq_none_iff`.
-/
import Recurrence.Proofs.Moment.Grammar
import Recurrence.Proofs.Reading
import Recurrence.Rule.Read

namespace Recurrence

open Decimal Reading Text

/-! ### Names and codes -/

theorem Weekday.ofCode?_eq_some_iff {text : List Char} {day : Weekday} :
    ofCode? text = some day ↔ upperChars text = day.code.toList := by
  constructor
  · intro h
    have hcode := List.find?_some h
    exact (of_decide_eq_true hcode).symm
  · intro h
    rw [ofCode?, h]
    cases day <;> decide

theorem Frequency.read_eq_ok_iff {text : String} {frequency : Frequency} :
    read text = .ok frequency ↔ Text.upper text = frequency.name := by
  have hfind : all.find? (·.name == Text.upper text) = some frequency ↔
      Text.upper text = frequency.name := by
    constructor
    · intro h
      have hname := List.find?_some h
      exact (beq_iff_eq.1 hname).symm
    · intro h
      rw [h]
      cases frequency <;> decide
  rw [← hfind, read]
  split
  · rename_i found hfound
    rw [hfound, Except.ok.injEq, Option.some.injEq]
  · rename_i hnone
    rw [hnone]
    simp

theorem RuleKey.ofName?_eq_some_iff {name : String} {key : RuleKey} :
    ofName? name = some key ↔ name = key.name := by
  constructor
  · intro h
    have hname := List.find?_some h
    exact (beq_iff_eq.1 hname).symm
  · rintro rfl
    cases key <;> decide

/-! ### Weekdays with their numbers -/

namespace OrdinalWeekday

/-- Whether a text is the code of a weekday, behind its number if it has one. -/
structure Spells (text : List Char) (day : OrdinalWeekday) : Prop where
  parts : ∃ number code, text = number ++ code ∧ upperChars code = day.weekday.code.toList ∧
    (number = [] ∧ day.number = 0 ∨ Numeral number day.number ∧ day.number ≠ 0)
  range : -53 ≤ day.number ∧ day.number ≤ 53

/-- **Which weekdays are read.** -/
theorem readChars_eq_ok_iff {text : List Char} {day : OrdinalWeekday} :
    readChars text = .ok day ↔ Spells text day := by
  constructor
  · intro h
    have htext := (List.take_append_drop (text.length - 2) text).symm
    unfold readChars at h
    dsimp only at h
    split at h
    · exact absurd h (by simp)
    · rename_i weekday hcode
      have hcode := Weekday.ofCode?_eq_some_iff.1 hcode
      split at h
      · rename_i hnone
        obtain rfl := Except.ok.inj h
        exact ⟨⟨_, _, htext, hcode, Or.inl ⟨hnone, rfl⟩⟩,
          show (-53 : Int) ≤ 0 by decide, show (0 : Int) ≤ 53 by decide⟩
      · split at h
        · exact absurd h (by simp)
        · rename_i number hnumber
          have hnumeral := (signed?_eq_some_iff.1 hnumber).1
          split at h
          · exact absurd h (by simp)
          · rename_i hzero
            rw [mapError_eq_ok, of] at h
            split at h
            · rename_i hrange
              obtain rfl := Except.ok.inj h
              exact ⟨⟨_, _, htext, hcode, Or.inr ⟨hnumeral, hzero⟩⟩, hrange⟩
            · exact absurd h (by simp)
  · rintro ⟨⟨number, code, rfl, hcode, hnumber⟩, hrange⟩
    obtain ⟨n, weekday⟩ := day
    have hlength : code.length = 2 := by
      have hfolded : code.length = weekday.code.toList.length := by
        rw [← List.length_map Char.toUpper]
        exact congrArg List.length hcode
      rw [hfolded]
      cases weekday <;> rfl
    have hcut : (number ++ code).length - 2 = number.length := by
      rw [List.length_append, hlength, Nat.add_sub_cancel]
    rw [readChars, hcut, List.drop_left, List.take_left, Weekday.ofCode?_eq_some_iff.2 hcode]
    rcases hnumber with ⟨rfl, hzero⟩ | ⟨hnumeral, hzero⟩
    · obtain rfl : n = 0 := hzero
      rfl
    · have hsigned : signed? (Int32.size / 2) number = some n := by
        refine signed?_eq_some_iff.2 ⟨hnumeral, ?_⟩
        simp only [Int32.size] at hrange ⊢
        omega
      cases number with
      | nil =>
        have hnone : signed? (Int32.size / 2) [] = none := by decide
        exact absurd (hnone.symm.trans hsigned) (by simp)
      | cons c rest =>
        simp only [hsigned, if_neg (show ¬ n = 0 from hzero), of, if_pos hrange]
        rfl

end OrdinalWeekday

/-! ### Values -/

/-- Whether a value lists what its items spell, separated by commas and with any blanks
around each. -/
def Lists {α : Type} (spells : List Char → α → Prop) (value : List Char) (as : List α) : Prop :=
  List.Forall₂ (fun item a => spells (trimChars item) a) (fields ',' value) as

/-- Whether a text is the numeral of a number from `low` to `high`. -/
def SpellsIn (low high : Nat) (text : List Char) (n : Nat) : Prop :=
  Numeral text n ∧ low ≤ n ∧ n ≤ high

/-- Whether a text is the numeral of a number of at most `high` places, counted from
either end. -/
def SpellsWithin (high : Nat) (text : List Char) (n : Int) : Prop :=
  Numeral text n ∧ 1 ≤ n.natAbs ∧ n.natAbs ≤ high

namespace RulePart

/-- **The grammar of values**: whether a text is a value of the key of a part, and says
what the part does. -/
def Says (value : List Char) : RulePart → Prop
  | freq frequency => upperChars value = frequency.name.toList
  | finish (.untilLocal bound) => Moment.Spells (trimChars value) bound false
  | finish (.untilUtc bound) => Moment.Spells (trimChars value) bound true
  | finish .never | finish (.count _) => False
  | count n | interval n => SpellsIn 1 (UInt32.size - 1) (trimChars value) n
  | wkst day => upperChars (trimChars value) = day.code.toList
  | byDay days => Lists OrdinalWeekday.Spells value days
  | byMonth months => Lists (SpellsIn 1 12) value months
  | byMonthDay days => Lists (SpellsWithin 31) value days
  | byWeekNo weeks => Lists (SpellsWithin 53) value weeks
  | byYearDay days => Lists (SpellsWithin 366) value days
  | byHour hours => Lists (SpellsIn 0 23) value hours
  | byMinute minutes => Lists (SpellsIn 0 59) value minutes
  | bySecond seconds => Lists (SpellsIn 0 60) value seconds
  | bySetPos positions => Lists (SpellsWithin 366) value positions

/-- Whether a text is a key, an equals sign and a value that give a part; the key stands
among any blanks. -/
def GivenBy (text : List Char) (part : RulePart) : Prop :=
  ∃ key value, text = key ++ '=' :: value ∧ '=' ∉ key ∧
    upperChars (trimChars key) = part.key.name.toList ∧ part.Says value

/-- Whether a text is the key of an extension, an equals sign and any value. -/
def IsExtension (text : List Char) : Prop :=
  ∃ key value, text = key ++ '=' :: value ∧ '=' ∉ key ∧
    "X-".toList <+: upperChars (trimChars key)

variable {value text : List Char} {part : RulePart}

theorem readNumber_eq_ok_iff {low high : Nat} {signed : Bool} {item : List Char} {n : Int}
    (hhigh : high < Int32.size / 2) : readNumber low high signed item = .ok n ↔
      Numeral (trimChars item) n ∧ low ≤ n.natAbs ∧ n.natAbs ≤ high ∧
        (signed = true ∨ 0 ≤ n) := by
  have hread := @signed?_eq_some_iff (trimChars item) (Int32.size / 2) n
  unfold readNumber
  split
  · rename_i hnone
    rw [hnone] at hread
    refine iff_of_false (by simp) fun h => absurd (hread.2 ⟨h.1, ?_⟩) (by simp)
    simp only [Int32.size] at hhigh ⊢
    omega
  · rename_i k hk
    rw [hk, Option.some.injEq] at hread
    constructor
    · intro h
      split at h
      · rename_i hbounds
        obtain rfl := Except.ok.inj h
        exact ⟨(hread.1 rfl).1, hbounds⟩
      · exact absurd h (by simp)
    · rintro ⟨hnumeral, hbounds⟩
      obtain rfl : k = n := by
        refine hread.2 ⟨hnumeral, ?_⟩
        simp only [Int32.size] at hhigh ⊢
        omega
      exact if_pos hbounds

theorem readSigned_eq_ok_iff {high : Nat} (hhigh : high < Int32.size / 2) {ns : List Int} :
    readSigned high value = .ok ns ↔ Lists (SpellsWithin high) value ns := by
  rw [readSigned, mapM_eq_ok, Lists]
  simp only [readNumber_eq_ok_iff hhigh, SpellsWithin, true_or, and_true]

theorem readUnsigned_eq_ok_iff {low high : Nat} (hhigh : high < Int32.size / 2) {ns : List Nat} :
    readUnsigned low high value = .ok ns ↔ Lists (SpellsIn low high) value ns := by
  have hitem : ∀ (item : List Char) (n : Nat),
      (readNumber low high false item).map Int.toNat = .ok n ↔
        SpellsIn low high (trimChars item) n := by
    intro item n
    simp only [map_eq_ok, readNumber_eq_ok_iff hhigh, Bool.false_eq_true, false_or, SpellsIn]
    constructor
    · rintro ⟨z, ⟨hnumeral, hlow, hz, hsign⟩, rfl⟩
      rw [Int.toNat_of_nonneg hsign]
      exact ⟨hnumeral, by omega, by omega⟩
    · rintro ⟨hnumeral, hlow, hn⟩
      exact ⟨n, ⟨hnumeral, by omega, by omega, by omega⟩, Int.toNat_natCast n⟩
  rw [readUnsigned, mapM_eq_ok, Lists]
  simp only [hitem]

theorem readPositive_eq_ok_iff {n : Nat} :
    readPositive value = .ok n ↔ SpellsIn 1 (UInt32.size - 1) (trimChars value) n := by
  constructor
  · intro h
    unfold readPositive at h
    split at h
    · rename_i k hread
      obtain rfl := Except.ok.inj h
      obtain ⟨hnumeral, hmost⟩ := (unsigned?_eq_some_iff (Nat.succ_pos k)).1 hread
      exact ⟨hnumeral, Nat.succ_pos k, hmost⟩
    · exact absurd h (by simp)
  · rintro ⟨hnumeral, hleast, hmost⟩
    obtain ⟨k, rfl⟩ := Nat.exists_eq_add_of_le' hleast
    rw [readPositive, (unsigned?_eq_some_iff hleast).2 ⟨hnumeral, hmost⟩]

theorem readWeekday_eq_ok_iff {day : Weekday} :
    readWeekday value = .ok day ↔ upperChars (trimChars value) = day.code.toList := by
  rw [← Weekday.ofCode?_eq_some_iff, readWeekday]
  split
  · rename_i found hfound
    rw [hfound, Except.ok.injEq, Option.some.injEq]
  · rename_i hnone
    rw [hnone]
    simp

theorem readBound_eq_ok_iff {bound : Finish} :
    readBound value = .ok bound ↔ (finish bound).Says value := by
  rw [readBound, map_eq_ok, Moment.readMarked, String.toList_ofList]
  constructor
  · rintro ⟨⟨m, utc⟩, hread, rfl⟩
    have hspells := Moment.readChars_eq_ok_iff_spells.1 hread
    cases utc <;> exact hspells
  · intro h
    cases bound with
    | never => exact absurd h id
    | count => exact absurd h id
    | untilLocal m => exact ⟨(m, false), Moment.readChars_eq_ok_iff_spells.2 h, rfl⟩
    | untilUtc m => exact ⟨(m, true), Moment.readChars_eq_ok_iff_spells.2 h, rfl⟩

theorem readDays_eq_ok_iff {days : List OrdinalWeekday} :
    ((fields ',' value).mapM fun item => OrdinalWeekday.readChars (trimChars item)) = .ok days ↔
      Lists OrdinalWeekday.Spells value days := by
  rw [mapM_eq_ok, Lists]
  simp only [OrdinalWeekday.readChars_eq_ok_iff]

theorem readFrequency_eq_ok_iff {frequency : Frequency} :
    Frequency.read (String.ofList value) = .ok frequency ↔
      upperChars value = frequency.name.toList := by
  rw [Frequency.read_eq_ok_iff, upper, String.toList_ofList, ← String.toList_inj,
    String.toList_ofList]

/-- **Which values are read for a key**, and as what. -/
theorem readValue_eq_ok_iff {key : RuleKey} :
    readValue value key = .ok part ↔ part.key = key ∧ part.Says value := by
  constructor
  · intro h
    cases key <;> obtain ⟨a, ha, rfl⟩ := map_eq_ok.1 h
    case freq => exact ⟨rfl, readFrequency_eq_ok_iff.1 ha⟩
    case untilBound => exact ⟨rfl, readBound_eq_ok_iff.1 ha⟩
    case count => exact ⟨rfl, readPositive_eq_ok_iff.1 ha⟩
    case interval => exact ⟨rfl, readPositive_eq_ok_iff.1 ha⟩
    case wkst => exact ⟨rfl, readWeekday_eq_ok_iff.1 ha⟩
    case byDay => exact ⟨rfl, readDays_eq_ok_iff.1 ha⟩
    case byMonth => exact ⟨rfl, (readUnsigned_eq_ok_iff (by decide)).1 ha⟩
    case byMonthDay => exact ⟨rfl, (readSigned_eq_ok_iff (by decide)).1 ha⟩
    case byWeekNo => exact ⟨rfl, (readSigned_eq_ok_iff (by decide)).1 ha⟩
    case byYearDay => exact ⟨rfl, (readSigned_eq_ok_iff (by decide)).1 ha⟩
    case byHour => exact ⟨rfl, (readUnsigned_eq_ok_iff (by decide)).1 ha⟩
    case byMinute => exact ⟨rfl, (readUnsigned_eq_ok_iff (by decide)).1 ha⟩
    case bySecond => exact ⟨rfl, (readUnsigned_eq_ok_iff (by decide)).1 ha⟩
    case bySetPos => exact ⟨rfl, (readSigned_eq_ok_iff (by decide)).1 ha⟩
  · rintro ⟨rfl, hsays⟩
    cases part with
    | freq => exact map_eq_ok.2 ⟨_, readFrequency_eq_ok_iff.2 hsays, rfl⟩
    | finish => exact map_eq_ok.2 ⟨_, readBound_eq_ok_iff.2 hsays, rfl⟩
    | count => exact map_eq_ok.2 ⟨_, readPositive_eq_ok_iff.2 hsays, rfl⟩
    | interval => exact map_eq_ok.2 ⟨_, readPositive_eq_ok_iff.2 hsays, rfl⟩
    | wkst => exact map_eq_ok.2 ⟨_, readWeekday_eq_ok_iff.2 hsays, rfl⟩
    | byDay => exact map_eq_ok.2 ⟨_, readDays_eq_ok_iff.2 hsays, rfl⟩
    | byMonth => exact map_eq_ok.2 ⟨_, (readUnsigned_eq_ok_iff (by decide)).2 hsays, rfl⟩
    | byMonthDay => exact map_eq_ok.2 ⟨_, (readSigned_eq_ok_iff (by decide)).2 hsays, rfl⟩
    | byWeekNo => exact map_eq_ok.2 ⟨_, (readSigned_eq_ok_iff (by decide)).2 hsays, rfl⟩
    | byYearDay => exact map_eq_ok.2 ⟨_, (readSigned_eq_ok_iff (by decide)).2 hsays, rfl⟩
    | byHour => exact map_eq_ok.2 ⟨_, (readUnsigned_eq_ok_iff (by decide)).2 hsays, rfl⟩
    | byMinute => exact map_eq_ok.2 ⟨_, (readUnsigned_eq_ok_iff (by decide)).2 hsays, rfl⟩
    | bySecond => exact map_eq_ok.2 ⟨_, (readUnsigned_eq_ok_iff (by decide)).2 hsays, rfl⟩
    | bySetPos => exact map_eq_ok.2 ⟨_, (readSigned_eq_ok_iff (by decide)).2 hsays, rfl⟩

/-! ### Parts -/

theorem split?_eq_some_iff {name : String} : split? text = some (name, value) ↔
    ∃ key, text = key ++ '=' :: value ∧ '=' ∉ key ∧
      name = String.ofList (upperChars (trimChars key)) := by
  unfold split?
  constructor
  · intro h
    split at h
    · rename_i c rest hdrop
      obtain ⟨rfl, rfl⟩ := Prod.mk.inj (Option.some.inj h)
      obtain ⟨htext, hkey⟩ := eq_of_dropWhile_bne hdrop
      exact ⟨text.takeWhile (· != '='), htext, hkey, rfl⟩
    · exact absurd h (by simp)
  · rintro ⟨key, rfl, hkey, rfl⟩
    rw [dropWhile_bne_append hkey, takeWhile_bne_append hkey]

theorem isExtensionName_ofList {name : List Char} :
    Parameter.isExtensionName (String.ofList name) = true ↔ "X-".toList <+: name := by
  rw [Parameter.isExtensionName, List.isPrefixOf_iff_prefix, @String.toList_ofList name]

/-- No known key is an extension. -/
theorem ofName?_extension {name : String} (h : Parameter.isExtensionName name = true) :
    RuleKey.ofName? name = none := by
  cases hkey : RuleKey.ofName? name with
  | none => rfl
  | some key =>
    rw [RuleKey.ofName?_eq_some_iff.1 hkey] at h
    cases key <;> exact absurd h (by decide)

/-- **Which parts give the value of a key.** -/
theorem read_eq_some_iff : read text = .ok (some part) ↔ part.GivenBy text := by
  unfold read
  constructor
  · intro h
    split at h
    · exact absurd h (by simp)
    · rename_i name value hsplit
      obtain ⟨key, htext, hkey, hname⟩ := split?_eq_some_iff.1 hsplit
      rw [inProduction_eq_ok, bare_eq_ok] at h
      split at h
      · rename_i known hknown
        obtain ⟨part', hread, heq⟩ := map_eq_ok.1 h
        obtain rfl := Option.some.inj heq
        obtain ⟨rfl, hsays⟩ := readValue_eq_ok_iff.1 hread
        refine ⟨key, value, htext, hkey, ?_, hsays⟩
        rw [← RuleKey.ofName?_eq_some_iff.1 hknown, hname, String.toList_ofList]
      · split at h <;> exact absurd h (by simp)
  · rintro ⟨key, value, htext, hkey, hname, hsays⟩
    have hsplit : split? text = some (part.key.name, value) :=
      split?_eq_some_iff.2 ⟨key, htext, hkey, by rw [hname, String.ofList_toList]⟩
    have hknown : RuleKey.ofName? part.key.name = some part.key :=
      RuleKey.ofName?_eq_some_iff.2 rfl
    simp only [hsplit, inProduction_eq_ok, bare_eq_ok, hknown]
    exact map_eq_ok.2 ⟨part, readValue_eq_ok_iff.2 ⟨rfl, hsays⟩, rfl⟩

/-- **Which parts are passed over.** -/
theorem read_eq_none_iff : read text = .ok none ↔ IsExtension text := by
  unfold read
  constructor
  · intro h
    split at h
    · exact absurd h (by simp)
    · rename_i name value hsplit
      obtain ⟨key, htext, hkey, rfl⟩ := split?_eq_some_iff.1 hsplit
      rw [inProduction_eq_ok, bare_eq_ok] at h
      split at h
      · obtain ⟨part', -, heq⟩ := map_eq_ok.1 h
        exact absurd heq (by simp)
      · split at h
        · rename_i hextension
          exact ⟨key, value, htext, hkey, isExtensionName_ofList.1 hextension⟩
        · exact absurd h (by simp)
  · rintro ⟨key, value, htext, hkey, hprefix⟩
    have hextension := isExtensionName_ofList.2 hprefix
    simp only [split?_eq_some_iff.2 ⟨key, htext, hkey, rfl⟩, inProduction_eq_ok, bare_eq_ok,
      ofName?_extension hextension, hextension, if_true]

end RulePart

end Recurrence
