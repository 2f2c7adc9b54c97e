/-
# Which texts are rules

A text is a rule when each of its parts is blank, an extension, or the value of a known
key, no key has two values, there is a frequency, and there is one end at most. The rule
has what its parts give, wherever they stand among the others, and a default for what no
part gives.

Key definitions: `Rule.IsSkipped`, `Rule.Given`, `Rule.IsRule`, `Rule.Collects`.
Key theorems: `Rule.readPartsAfter_eq_ok_iff`, `Rule.ofParts_eq_ok_iff`,
`Rule.read_eq_ok_iff`, `Rule.reads_by_parts`.
-/
import Recurrence.Proofs.Rule.Parsed
import Recurrence.Proofs.Text.Lines

namespace Recurrence

open Reading Text

namespace Rule

variable {texts : List (List Char)} {text : List Char} {parts : List RulePart} {part : RulePart}
  {α : Type}

/-! ### What a text gives -/

/-- Whether a part of a text gives nothing. -/
def IsSkipped (text : List Char) : Prop :=
  trimChars text = [] ∨ RulePart.IsExtension text

/-- Whether one of the texts gives a part. -/
def Given (texts : List (List Char)) (part : RulePart) : Prop :=
  ∃ text ∈ texts, part.GivenBy text

/-- **The grammar of rules**, by the texts between the semicolons. -/
structure IsRule (texts : List (List Char)) : Prop where
  parts : ∀ text ∈ texts, IsSkipped text ∨ ∃ part : RulePart, part.GivenBy text
  distinct : texts.Pairwise fun text text' => ∀ part part' : RulePart,
    part.GivenBy text → part'.GivenBy text' → part.key ≠ part'.key
  frequency : ∃ frequency, Given texts (.freq frequency)
  oneEnd : ∀ bound n, ¬ (Given texts (.finish bound) ∧ Given texts (.count n))

/-- Whether a value is the one that a part of a kind gives, or the default where no part
of the kind is given. -/
def HasField (given : RulePart → Prop) (kind : α → RulePart) (other value : α) : Prop :=
  given (kind value) ∨ (∀ a, ¬ given (kind a)) ∧ value = other

/-- The part that gives an end. -/
def endPart : Finish → RulePart
  | .count n => .count n
  | bound => .finish bound

/-- Whether a rule has what its parts give, and the defaults of the other fields. -/
@[mk_iff]
structure Collects (rule : Rule) (given : RulePart → Prop) : Prop where
  effect : rule.effect = .includes
  frequency : given (.freq rule.frequency)
  weekStart : ∀ day, rule.weekStart = some day ↔ given (.wkst day)
  finish : HasField given endPart .never rule.finish
  interval : HasField given .interval 1 rule.interval
  byDay : HasField given .byDay [] rule.byDay
  byMonth : HasField given .byMonth [] rule.byMonth
  byMonthDay : HasField given .byMonthDay [] rule.byMonthDay
  byWeekNo : HasField given .byWeekNo [] rule.byWeekNo
  byYearDay : HasField given .byYearDay [] rule.byYearDay
  byHour : HasField given .byHour [] rule.byHour
  byMinute : HasField given .byMinute [] rule.byMinute
  bySecond : HasField given .bySecond [] rule.bySecond
  bySetPos : HasField given .bySetPos [] rule.bySetPos
  parameters : rule.parameters = .empty

/-! ### Reading the parts -/

/-- The part that a text gives. -/
def given? (text : List Char) : Option RulePart :=
  match RulePart.read text with
  | .ok part? => part?
  | .error _ => none

theorem given?_eq_some_iff : given? text = some part ↔ part.GivenBy text := by
  rw [← RulePart.read_eq_some_iff, given?]
  cases RulePart.read text <;> simp

theorem mem_filterMap_given? : part ∈ texts.filterMap given? ↔ Given texts part := by
  simp only [List.mem_filterMap, given?_eq_some_iff, Given]

/-- A blank text gives no part. -/
theorem given?_of_blank (h : trimChars text = []) : given? text = none := by
  refine Option.eq_none_iff_forall_ne_some.2 fun part hpart => ?_
  obtain ⟨key, value, rfl, -⟩ := given?_eq_some_iff.1 hpart
  have hblank := (trimChars_eq_nil_iff.1 h) '=' (List.mem_append_right _ List.mem_cons_self)
  exact absurd hblank (by decide)

theorem given?_of_extension (h : RulePart.IsExtension text) : given? text = none := by
  rw [given?, RulePart.read_eq_none_iff.2 h]

theorem given?_of_isSkipped (h : IsSkipped text) : given? text = none :=
  h.elim given?_of_blank given?_of_extension

section Steps

variable {whole : String} {seen : List RuleKey}

theorem readPartsAfter_skipped (h : IsSkipped text) :
    readPartsAfter whole seen (text :: texts) = readPartsAfter whole seen texts := by
  rw [readPartsAfter]
  split
  · rfl
  · rename_i hblank
    have hextension := h.resolve_left fun h => hblank (List.isEmpty_iff.2 h)
    rw [RulePart.read_eq_none_iff.2 hextension]
    rfl

theorem readPartsAfter_given (h : part.GivenBy text) :
    readPartsAfter whole seen (text :: texts) = .ok parts ↔ part.key ∉ seen ∧
      ∃ rest, readPartsAfter whole (part.key :: seen) texts = .ok rest ∧ part :: rest = parts := by
  have hblank : ¬ (trimChars text).isEmpty = true := by
    intro hblank
    have hnone := given?_of_blank (List.isEmpty_iff.1 hblank)
    exact absurd (hnone.symm.trans (given?_eq_some_iff.2 h)) (by simp)
  rw [readPartsAfter, if_neg hblank, RulePart.read_eq_some_iff.2 h]
  simp only [bind_eq_ok, Except.ok.injEq, exists_eq_left', ite_throw_eq_ok, pure_eq_ok]

/-- A part that is read gives nothing or a part of a key. -/
theorem skipped_or_given (h : readPartsAfter whole seen (text :: texts) = .ok parts) :
    IsSkipped text ∨ ∃ part : RulePart, part.GivenBy text := by
  rw [readPartsAfter] at h
  split at h
  · rename_i hblank
    exact Or.inl (Or.inl (List.isEmpty_iff.1 hblank))
  · obtain ⟨part?, hread, -⟩ := bind_eq_ok.1 h
    cases part? with
    | none => exact Or.inl (Or.inr (RulePart.read_eq_none_iff.1 hread))
    | some part => exact Or.inr ⟨part, RulePart.read_eq_some_iff.1 hread⟩

/-- **Which texts are read as parts**: those that give nothing, and those that give
parts of new and distinct keys. -/
theorem readPartsAfter_eq_ok_iff : readPartsAfter whole seen texts = .ok parts ↔
    (∀ text ∈ texts, IsSkipped text ∨ ∃ part : RulePart, part.GivenBy text) ∧
    texts.filterMap given? = parts ∧ (parts.map RulePart.key).Nodup ∧
    ∀ part ∈ parts, part.key ∉ seen := by
  induction texts generalizing seen parts with
  | nil =>
    rw [readPartsAfter, Except.ok.injEq]
    constructor
    · rintro rfl
      simp
    · exact fun h => h.2.1
  | cons text texts ih =>
    rw [List.forall_mem_cons, List.filterMap_cons]
    by_cases hread : IsSkipped text ∨ ∃ part : RulePart, part.GivenBy text
    case neg => exact iff_of_false (fun h => hread (skipped_or_given h)) fun h => hread h.1.1
    case pos =>
      rw [iff_true_intro hread, true_and]
      rcases hread with hskipped | ⟨part, hgiven⟩
      · rw [readPartsAfter_skipped hskipped, given?_of_isSkipped hskipped, ih]
      · rw [readPartsAfter_given hgiven, given?_eq_some_iff.2 hgiven]
        simp only [ih]
        constructor
        · rintro ⟨hseen, _, ⟨htexts, rfl, hkeys, hnew⟩, rfl⟩
          refine ⟨htexts, rfl, List.nodup_cons.2 ⟨fun hmem => ?_, hkeys⟩,
            List.forall_mem_cons.2 ⟨hseen, fun other hother hmem => ?_⟩⟩
          · obtain ⟨other, hother, hkey⟩ := List.mem_map.1 hmem
            exact hnew other hother (hkey ▸ List.mem_cons_self)
          · exact hnew other hother (List.mem_cons_of_mem _ hmem)
        · rintro ⟨htexts, rfl, hkeys, hnew⟩
          obtain ⟨hkey, hkeys⟩ := List.nodup_cons.1 hkeys
          obtain ⟨hseen, hnew⟩ := List.forall_mem_cons.1 hnew
          refine ⟨hseen, _, ⟨htexts, rfl, hkeys, fun other hother hmem => ?_⟩, rfl⟩
          rcases List.mem_cons.1 hmem with heq | hmem
          · exact hkey (heq ▸ List.mem_map_of_mem hother)
          · exact hnew other hother hmem

end Steps

/-! ### The fields of a rule -/

@[simp] theorem endPart_count (n : Nat) : endPart (.count n) = .count n := rfl

/-- An end is given by a count or a bound. -/
theorem endPart_cases (bound : Finish) :
    (∃ n, bound = .count n) ∨ endPart bound = .finish bound := by
  cases bound with
  | count n => exact Or.inl ⟨n, rfl⟩
  | never | untilLocal | untilUtc => exact Or.inr rfl

theorem endPart_injective : Function.Injective endPart := by
  intro b c h
  cases b <;> cases c <;> simp_all [endPart]

/-- What a part in its range says of the end. -/
theorem eq_endPart_iff {bound : Finish} : part.InRange → ((match part with
      | .finish bound => some bound
      | .count n => some (.count n)
      | _ => none) = some bound ↔ part = endPart bound) := by
  intro hrange
  cases part with
  | finish b =>
    rcases endPart_cases bound with ⟨n, rfl⟩ | hbound
    · exact iff_of_false (fun h => hrange n (Option.some.inj h)) (by simp)
    · rw [hbound, Option.some.injEq, RulePart.finish.injEq]
  | count n => cases bound <;> simp [endPart]
  | _ => rcases endPart_cases bound with ⟨n, rfl⟩ | hbound <;> simp [*]

section Fields

variable {select : RulePart → Option α} {kind : α → RulePart}

/-- What is found among parts with one part of a kind at most is what this part gives. -/
theorem findSome?_eq_some_iff {a : α} (hselect : ∀ part ∈ parts, ∀ b,
      select part = some b ↔ part = kind b)
    (hunique : ∀ b c, kind b ∈ parts → kind c ∈ parts → b = c) :
    parts.findSome? select = some a ↔ kind a ∈ parts := by
  constructor
  · intro h
    obtain ⟨part, hpart, hfound⟩ := List.exists_of_findSome?_eq_some h
    exact (hselect part hpart a).1 hfound ▸ hpart
  · intro ha
    cases hfound : parts.findSome? select with
    | none =>
      have hnone := List.findSome?_eq_none_iff.1 hfound _ ha
      exact absurd (hnone.symm.trans ((hselect _ ha a).2 rfl)) (by simp)
    | some b =>
      obtain ⟨part, hpart, hselected⟩ := List.exists_of_findSome?_eq_some hfound
      obtain rfl := (hselect part hpart b).1 hselected
      rw [hunique a b ha hpart]

theorem valueOr_eq_iff {other value : α} (hselect : ∀ part ∈ parts, ∀ b,
      select part = some b ↔ part = kind b)
    (hunique : ∀ b c, kind b ∈ parts → kind c ∈ parts → b = c) :
    valueOr other select parts = value ↔ HasField (· ∈ parts) kind other value := by
  have hfind := fun a => findSome?_eq_some_iff (a := a) hselect hunique
  unfold valueOr HasField
  simp only [← hfind]
  cases parts.findSome? select <;> simp [eq_comm]

/-- Parts of distinct keys have one part of a kind at most. -/
theorem unique_of_nodup (hkeys : (parts.map RulePart.key).Nodup)
    (hkind : ∀ b c, (kind b).key = (kind c).key) (hinj : ∀ b c, kind b = kind c → b = c) :
    ∀ b c, kind b ∈ parts → kind c ∈ parts → b = c :=
  fun b c hb hc => hinj b c (List.inj_on_of_nodup_map hkeys hb hc (hkind b c))

/-- A key is that of a part if one of its kind is among them. -/
theorem mem_keys_iff {key : RuleKey}
    (hkind : ∀ part : RulePart, part.key = key ↔ ∃ a, part = kind a) :
    key ∈ parts.map RulePart.key ↔ ∃ a, kind a ∈ parts := by
  rw [List.mem_map]
  constructor
  · rintro ⟨part, hpart, hkey⟩
    obtain ⟨a, rfl⟩ := (hkind part).1 hkey
    exact ⟨a, hpart⟩
  · rintro ⟨a, ha⟩
    exact ⟨kind a, ha, (hkind _).2 ⟨a, rfl⟩⟩

/-- Parts of distinct keys with one end at most have one part that gives it at most. -/
theorem unique_end (hkeys : (parts.map RulePart.key).Nodup)
    (hone : ∀ bound n, ¬ (RulePart.finish bound ∈ parts ∧ RulePart.count n ∈ parts)) :
    ∀ b c, endPart b ∈ parts → endPart c ∈ parts → b = c := by
  intro b c hb hc
  have hkey : (endPart b).key = (endPart c).key := by
    rcases endPart_cases b with ⟨n, rfl⟩ | hbound <;> rcases endPart_cases c with ⟨m, rfl⟩ | hbound'
    · rfl
    · exact absurd ⟨hbound' ▸ hc, hb⟩ (hone c n)
    · exact absurd ⟨hbound ▸ hb, hc⟩ (hone b m)
    · rw [hbound, hbound']
      rfl
  exact endPart_injective (List.inj_on_of_nodup_map hkeys hb hc hkey)

end Fields

/-- **Which rule the parts describe**, when their keys are distinct and they have one
end at most. -/
theorem withParts_eq_iff {rule : Rule} {frequency : Frequency}
    (hkeys : (parts.map RulePart.key).Nodup) (hrange : ∀ part ∈ parts, part.InRange)
    (hone : ∀ bound n, ¬ (RulePart.finish bound ∈ parts ∧ RulePart.count n ∈ parts))
    (hfrequency : RulePart.freq frequency ∈ parts) :
    withParts frequency parts = rule ↔ rule.Collects (· ∈ parts) := by
  have hweek : ∀ day, (withParts frequency parts).weekStart = some day ↔
      RulePart.wkst day ∈ parts := fun day =>
    findSome?_eq_some_iff (by rintro ⟨⟩ <;> simp)
      (unique_of_nodup hkeys (fun _ _ => rfl) (by simp))
  have hfield : ∀ {β : Type} {kind : β → RulePart} {select : RulePart → Option β} {other : β},
      (∀ part b, select part = some b ↔ part = kind b) → (∀ b c, (kind b).key = (kind c).key) →
      (∀ b c, kind b = kind c → b = c) → ∀ {value}, valueOr other select parts = value ↔
        HasField (· ∈ parts) kind other value :=
    fun hselect hkind hinj =>
      valueOr_eq_iff (fun part _ => hselect part) (unique_of_nodup hkeys hkind hinj)
  obtain ⟨_, _, _, _, _, _, _, _, _, _, _, _, _, _, _⟩ := rule
  rw [withParts, mk.injEq, collects_iff]
  refine and_congr eq_comm <| and_congr ?_ <| and_congr ?_ <|
    and_congr (valueOr_eq_iff (fun part hpart _ => eq_endPart_iff (hrange part hpart))
      (unique_end hkeys hone)) <|
    and_congr (hfield (by rintro ⟨⟩ <;> simp) (fun _ _ => rfl) (by simp)) <|
    and_congr (hfield (by rintro ⟨⟩ <;> simp) (fun _ _ => rfl) (by simp)) <|
    and_congr (hfield (by rintro ⟨⟩ <;> simp) (fun _ _ => rfl) (by simp)) <|
    and_congr (hfield (by rintro ⟨⟩ <;> simp) (fun _ _ => rfl) (by simp)) <|
    and_congr (hfield (by rintro ⟨⟩ <;> simp) (fun _ _ => rfl) (by simp)) <|
    and_congr (hfield (by rintro ⟨⟩ <;> simp) (fun _ _ => rfl) (by simp)) <|
    and_congr (hfield (by rintro ⟨⟩ <;> simp) (fun _ _ => rfl) (by simp)) <|
    and_congr (hfield (by rintro ⟨⟩ <;> simp) (fun _ _ => rfl) (by simp)) <|
    and_congr (hfield (by rintro ⟨⟩ <;> simp) (fun _ _ => rfl) (by simp)) <|
    and_congr (hfield (by rintro ⟨⟩ <;> simp) (fun _ _ => rfl) (by simp)) eq_comm
  · refine ⟨fun heq => heq ▸ hfrequency, fun hgiven => ?_⟩
    exact unique_of_nodup hkeys (fun _ _ => rfl) (by simp) _ _ hfrequency hgiven
  · constructor
    · rintro rfl
      exact hweek
    · exact fun h => Option.ext fun day => (hweek day).trans (h day).symm

/-- **Which parts describe a rule**, when their keys are distinct. -/
theorem ofParts_eq_ok_iff {whole : String} {rule : Rule}
    (hkeys : (parts.map RulePart.key).Nodup) (hrange : ∀ part ∈ parts, part.InRange) :
    ofParts whole parts = .ok rule ↔
      (∀ bound n, ¬ (RulePart.finish bound ∈ parts ∧ RulePart.count n ∈ parts)) ∧
      rule.Collects (· ∈ parts) := by
  have huntil : RuleKey.untilBound ∈ parts.map RulePart.key ↔
      ∃ bound, RulePart.finish bound ∈ parts :=
    mem_keys_iff (by rintro ⟨⟩ <;> simp [RulePart.key])
  have hcount : RuleKey.count ∈ parts.map RulePart.key ↔ ∃ n, RulePart.count n ∈ parts :=
    mem_keys_iff (by rintro ⟨⟩ <;> simp [RulePart.key])
  rw [ofParts]
  split
  · rename_i hboth
    obtain ⟨⟨bound, hbound⟩, n, hn⟩ := And.imp huntil.1 hcount.1 hboth
    exact iff_of_false (by simp) fun h => h.1 bound n ⟨hbound, hn⟩
  · rename_i hboth
    have hone : ∀ bound n, ¬ (RulePart.finish bound ∈ parts ∧ RulePart.count n ∈ parts) :=
      fun bound n h => hboth ⟨huntil.2 ⟨bound, h.1⟩, hcount.2 ⟨n, h.2⟩⟩
    rw [iff_true_intro hone, true_and]
    split
    · rename_i frequency hfound
      have hfreq : RulePart.freq frequency ∈ parts :=
        (findSome?_eq_some_iff (by rintro ⟨⟩ <;> simp)
          (unique_of_nodup hkeys (fun _ _ => rfl) (by simp))).1 hfound
      rw [Except.ok.injEq, withParts_eq_iff hkeys hrange hone hfreq]
    · rename_i hnone
      refine iff_of_false (by simp) fun h => ?_
      exact absurd (List.findSome?_eq_none_iff.1 hnone _ h.frequency) (by simp)

/-! ### Reading a rule -/

/-- The parts that texts give are in range. -/
theorem inRange_given : ∀ part ∈ texts.filterMap given?, part.InRange := by
  intro part hpart
  obtain ⟨text, -, hgiven⟩ := mem_filterMap_given?.1 hpart
  exact RulePart.inRange_of_read (RulePart.read_eq_some_iff.2 hgiven)

theorem distinct_iff : ((texts.filterMap given?).map RulePart.key).Nodup ↔
    texts.Pairwise fun text text' => ∀ part part' : RulePart,
      part.GivenBy text → part'.GivenBy text' → part.key ≠ part'.key := by
  rw [List.Nodup, List.pairwise_map, List.pairwise_filterMap]
  simp only [given?_eq_some_iff]
  exact List.Pairwise.iff fun _ _ =>
    ⟨fun h part part' hpart hpart' => h part hpart part' hpart',
      fun h part hpart part' hpart' => h part part' hpart hpart'⟩

/-- **Which texts are read as a rule, and as which rule.** -/
theorem read_eq_ok_iff {s : String} {rule : Rule} : read s = .ok rule ↔
    IsRule (fields ';' s.toList) ∧ rule.Collects (Given (fields ';' s.toList)) := by
  have hgiven : (· ∈ (fields ';' s.toList).filterMap given?) = Given (fields ';' s.toList) :=
    funext fun part => propext mem_filterMap_given?
  rw [read, inProduction_eq_ok, bind_eq_ok]
  simp only [readPartsAfter_eq_ok_iff, bare_eq_ok]
  constructor
  · rintro ⟨_, ⟨hparts, rfl, hkeys, -⟩, h⟩
    obtain ⟨hone, hcollects⟩ := (ofParts_eq_ok_iff hkeys inRange_given).1 h
    rw [hgiven] at hcollects
    simp only [mem_filterMap_given?] at hone
    exact ⟨⟨hparts, distinct_iff.1 hkeys, ⟨_, hcollects.frequency⟩, hone⟩, hcollects⟩
  · rintro ⟨hrule, hcollects⟩
    have hkeys := distinct_iff.2 hrule.distinct
    refine ⟨_, ⟨hrule.parts, rfl, hkeys, fun _ _ => List.not_mem_nil⟩, ?_⟩
    refine (ofParts_eq_ok_iff hkeys inRange_given).2 ⟨?_, hgiven ▸ hcollects⟩
    simpa only [mem_filterMap_given?] using hrule.oneEnd

/-- Texts that give parts give these parts. -/
theorem filterMap_given? (h : List.Forall₂ (fun text (part : RulePart) => part.GivenBy text)
    texts parts) : texts.filterMap given? = parts := by
  induction h with
  | nil => rfl
  | cons hpart _ ih => rw [List.filterMap_cons, given?_eq_some_iff.2 hpart, ih]

/-- A text whose fields give parts of distinct keys is read as the rule they describe. -/
theorem read_of_given {s : String} {rule : Rule}
    (h : List.Forall₂ (fun text (part : RulePart) => part.GivenBy text)
      (fields ';' s.toList) parts)
    (hkeys : (parts.map RulePart.key).Nodup) (hrule : ofParts s parts = .ok rule) :
    read s = .ok rule := by
  have hparts : ∀ text ∈ fields ';' s.toList,
      IsSkipped text ∨ ∃ part : RulePart, part.GivenBy text :=
    forall_mem_of_forall₂ h fun _ part hpart => Or.inr ⟨part, hpart⟩
  rw [read, inProduction_eq_ok, bind_eq_ok]
  exact ⟨parts, readPartsAfter_eq_ok_iff.2 ⟨hparts, filterMap_given? h, hkeys,
    fun _ _ => List.not_mem_nil⟩, bare_eq_ok.2 hrule⟩

/-- A text that is a rule is read. -/
theorem exists_read {s : String} (h : IsRule (fields ';' s.toList)) :
    ∃ rule, read s = .ok rule := by
  have hkeys := distinct_iff.2 h.distinct
  obtain ⟨frequency, hfrequency⟩ := h.frequency
  have hone : ∀ bound n, ¬ (RulePart.finish bound ∈ (fields ';' s.toList).filterMap given? ∧
      RulePart.count n ∈ (fields ';' s.toList).filterMap given?) := by
    simpa only [mem_filterMap_given?] using h.oneEnd
  have hcollects :=
    (withParts_eq_iff hkeys inRange_given hone (mem_filterMap_given?.2 hfrequency)).1 rfl
  simp only [mem_filterMap_given?] at hcollects
  exact ⟨_, read_eq_ok_iff.2 ⟨h, hcollects⟩⟩

/-! ### The order of the parts -/

section Order

variable {texts' skipped : List (List Char)}

theorem filterMap_skipped (h : ∀ text ∈ skipped, IsSkipped text) :
    (texts ++ skipped).filterMap given? = texts.filterMap given? := by
  have hnone : skipped.filterMap given? = [] :=
    List.filterMap_eq_nil_iff.2 fun text htext => given?_of_isSkipped (h text htext)
  rw [List.filterMap_append, hnone, List.append_nil]

/-- Texts with the same parts give the same. -/
theorem given_congr (h : (texts.filterMap given?).Perm (texts'.filterMap given?)) :
    Given texts = Given texts' := by
  funext part
  rw [← mem_filterMap_given?, ← mem_filterMap_given?]
  exact propext h.mem_iff

/-- Texts with the same parts are rules alike, if they have nothing else but parts that
give nothing. -/
theorem IsRule.of_perm (h : IsRule texts)
    (hparts : (texts.filterMap given?).Perm (texts'.filterMap given?))
    (hread : ∀ text ∈ texts', IsSkipped text ∨ ∃ part : RulePart, part.GivenBy text) :
    IsRule texts' where
  parts := hread
  distinct := distinct_iff.1 ((hparts.map _).nodup_iff.1 (distinct_iff.2 h.distinct))
  frequency := given_congr hparts ▸ h.frequency
  oneEnd := given_congr hparts ▸ h.oneEnd

/-- **The parts of a rule may stand in any order, among parts that give nothing.** -/
theorem read_perm {s s' : String} {skipped' : List (List Char)} {rule : Rule}
    (hskipped : ∀ text ∈ skipped, IsSkipped text) (hskipped' : ∀ text ∈ skipped', IsSkipped text)
    (hperm : (fields ';' s.toList ++ skipped).Perm (fields ';' s'.toList ++ skipped'))
    (h : read s = .ok rule) : read s' = .ok rule := by
  obtain ⟨hrule, hcollects⟩ := read_eq_ok_iff.1 h
  have hparts := hperm.filterMap given?
  rw [filterMap_skipped hskipped, filterMap_skipped hskipped'] at hparts
  refine read_eq_ok_iff.2
    ⟨hrule.of_perm hparts fun text htext => ?_, given_congr hparts ▸ hcollects⟩
  rcases List.mem_append.1 (hperm.mem_iff.2 (List.mem_append_left skipped' htext)) with hmem | hmem
  · exact hrule.parts text hmem
  · exact Or.inl (hskipped text hmem)

end Order

/-- **The grammar of rules.** A text is read as a rule exactly when it is one. The rule has
what the parts give, each in its range, and the defaults of what no part gives. Another
order of the parts makes no difference, and neither do parts that give nothing. -/
theorem reads_by_parts (s : String) :
    ((∃ rule, read s = .ok rule) ↔ IsRule (fields ';' s.toList)) ∧
    (∀ rule, read s = .ok rule ↔
      IsRule (fields ';' s.toList) ∧ rule.Collects (Given (fields ';' s.toList))) ∧
    (∀ rule, read s = .ok rule → rule.InRange) ∧
    ∀ (s' : String) (skipped skipped' : List (List Char)),
      (∀ text ∈ skipped, IsSkipped text) → (∀ text ∈ skipped', IsSkipped text) →
      (fields ';' s.toList ++ skipped).Perm (fields ';' s'.toList ++ skipped') →
      ∀ rule, read s = .ok rule ↔ read s' = .ok rule := by
  refine ⟨⟨?_, exists_read⟩, fun _ => read_eq_ok_iff, fun _ => inRange_of_read, ?_⟩
  · rintro ⟨rule, h⟩
    exact (read_eq_ok_iff.1 h).1
  · intro s' skipped skipped' hskipped hskipped' hperm rule
    exact ⟨read_perm hskipped hskipped' hperm, read_perm hskipped' hskipped hperm.symm⟩

/-- A rule whose parts are turned around, among a blank part and an extension. -/
theorem reads_by_parts_turned :
    ((∀ text ∈ [" ".toList, "x-note=".toList], IsSkipped text) ∧
      (fields ';' "FREQ=WEEKLY;BYDAY=TU,TH;COUNT=3".toList ++
        [" ".toList, "x-note=".toList]).Perm
          (fields ';' "COUNT=3; ;x-note=;BYDAY=TU,TH;FREQ=WEEKLY".toList ++ [])) ∧
    read "COUNT=3; ;x-note=;BYDAY=TU,TH;FREQ=WEEKLY" =
      .ok { every .weekly with
            byDay := [.every .tuesday, .every .thursday], finish := .count 3 } := by
  have hextension : RulePart.IsExtension "x-note=".toList :=
    ⟨"x-note".toList, [], rfl, by decide, by decide⟩
  have hskipped : ∀ text ∈ [" ".toList, "x-note=".toList], IsSkipped text :=
    List.forall_mem_cons.2 ⟨Or.inl rfl, List.forall_mem_singleton.2 (Or.inr hextension)⟩
  have hperm : (fields ';' "FREQ=WEEKLY;BYDAY=TU,TH;COUNT=3".toList ++
      [" ".toList, "x-note=".toList]).Perm
        (fields ';' "COUNT=3; ;x-note=;BYDAY=TU,TH;FREQ=WEEKLY".toList ++ []) := by decide
  have hread : read "FREQ=WEEKLY;BYDAY=TU,TH;COUNT=3" = .ok { every .weekly with
      byDay := [.every .tuesday, .every .thursday], finish := .count 3 } := by rfl
  exact ⟨⟨hskipped, hperm⟩,
    ((reads_by_parts _).2.2.2 _ _ [] hskipped (by simp) hperm _).1 hread⟩

end Rule

end Recurrence
