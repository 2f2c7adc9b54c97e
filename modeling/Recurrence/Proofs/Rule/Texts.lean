/-
# Rules as they are written

A rule in its ranges is read from what is written of it, whatever its parameters
hold apart from quotes and line breaks. Its parts are those that say something, they
have different keys, and together they describe the rule. Its text has an equals
sign behind its first colon, so it is not taken for a rule of vCalendar 1.0.

Key definitions: `Rule.said`, `Rule.Writable`.
Key theorems: `Rule.parts_eq_said`, `Rule.ofParts_said`, `Rule.read_body`,
`Rule.read_written`.
-/
import Recurrence.Line
import Recurrence.Proofs.Rule.Parts
import Recurrence.Proofs.Text.ContentLines
import Recurrence.Proofs.Text.Legacy
import Recurrence.Proofs.Text.Parameters

namespace Recurrence

open ContentLine Reading Text

namespace Rule

variable {α : Type} {rule : Rule}

/-! ### What a rule says -/

/-- The part of a list, unless it is empty. -/
def listSaid (kind : List α → RulePart) (values : List α) : List RulePart :=
  if values.isEmpty then [] else [kind values]

/-- The part that says where a rule ends. -/
def finishSaid : Finish → List RulePart
  | .never => []
  | .count n => [.count n]
  | bound => [.finish bound]

/-- The parts of a rule in the order they are written in. -/
def said (rule : Rule) : List RulePart :=
  [.freq rule.frequency] ++ rule.weekStart.toList.map .wkst ++ finishSaid rule.finish ++
    (if rule.interval = 1 then [] else [.interval rule.interval]) ++
    listSaid .byYearDay rule.byYearDay ++ listSaid .byMonth rule.byMonth ++
    listSaid .byMonthDay rule.byMonthDay ++ listSaid .byWeekNo rule.byWeekNo ++
    listSaid .byDay rule.byDay ++ listSaid .byHour rule.byHour ++
    listSaid .byMinute rule.byMinute ++ listSaid .bySecond rule.bySecond ++
    listSaid .bySetPos rule.bySetPos

theorem listParts_eq_said {kind : List α → RulePart} {key : RuleKey} {render : α → List Char}
    (hkind : ∀ values, (kind values).chars = part key.name (join ',' (values.map render)))
    (values : List α) :
    listParts key.name render values = (listSaid kind values).map RulePart.chars := by
  unfold listParts listSaid
  split
  · rfl
  · rw [List.map_singleton, hkind]

theorem finishParts_eq_said (finish : Finish) :
    finishParts finish = (finishSaid finish).map RulePart.chars := by
  cases finish <;> rfl

/-- The parts of a rule are written from what it says. -/
theorem parts_eq_said (rule : Rule) : rule.parts = rule.said.map RulePart.chars := by
  have hweek : (rule.weekStart.toList.map fun day => part "WKST" day.code.toList) =
      (rule.weekStart.toList.map RulePart.wkst).map RulePart.chars := by
    rw [List.map_map]
    rfl
  have hinterval : (if rule.interval = 1 then []
        else [part "INTERVAL" (Decimal.padded 0 rule.interval)]) =
      (if rule.interval = 1 then [] else [RulePart.interval rule.interval]).map
        RulePart.chars := by
    split <;> rfl
  unfold parts said
  simp only [List.map_append, ← hweek, ← finishParts_eq_said, ← hinterval]
  rw [← @listParts_eq_said _ .byYearDay .byYearDay signed fun _ => rfl,
    ← @listParts_eq_said _ .byMonth .byMonth (Decimal.padded 0) fun _ => rfl,
    ← @listParts_eq_said _ .byMonthDay .byMonthDay signed fun _ => rfl,
    ← @listParts_eq_said _ .byWeekNo .byWeekNo signed fun _ => rfl,
    ← @listParts_eq_said _ .byDay .byDay OrdinalWeekday.chars fun _ => rfl,
    ← @listParts_eq_said _ .byHour .byHour (Decimal.padded 0) fun _ => rfl,
    ← @listParts_eq_said _ .byMinute .byMinute (Decimal.padded 0) fun _ => rfl,
    ← @listParts_eq_said _ .bySecond .bySecond (Decimal.padded 0) fun _ => rfl,
    ← @listParts_eq_said _ .bySetPos .bySetPos signed fun _ => rfl]
  rfl

/-! ### The parts describe the rule -/

theorem findSome?_listSaid {β : Type} (kind : List α → RulePart) (values : List α)
    (select : RulePart → Option β) :
    (listSaid kind values).findSome? select =
      if values = [] then none else select (kind values) := by
  cases values <;> simp [listSaid]

theorem findSome?_weekSaid {β : Type} (weekStart : Option Weekday)
    (select : RulePart → Option β) :
    (weekStart.toList.map RulePart.wkst).findSome? select =
      weekStart.bind fun day => select (.wkst day) := by
  cases weekStart <;> simp

theorem findSome?_intervalSaid {β : Type} (n : Nat) (select : RulePart → Option β) :
    (if n = 1 then [] else [RulePart.interval n]).findSome? select =
      if n = 1 then none else select (.interval n) := by
  split <;> simp

/-- What is left out when it says nothing is what it was. -/
theorem getD_unless (a other : α) [Decidable (a = other)] :
    (if a = other then none else some a).getD other = a := by
  split <;> simp_all

theorem withParts_said (rule : Rule) : withParts rule.frequency rule.said =
    { rule with effect := .includes, parameters := .empty } := by
  unfold withParts valueOr said
  simp only [List.findSome?_append, findSome?_listSaid, findSome?_weekSaid,
    findSome?_intervalSaid]
  cases hfinish : rule.finish <;> simp [finishSaid, getD_unless]

/-- The keys of a rule's parts, in the order they are written in, with the key of its
end. -/
def keysWith (finish : RuleKey) : List RuleKey :=
  [.freq, .wkst, finish, .interval, .byYearDay, .byMonth, .byMonthDay, .byWeekNo, .byDay, .byHour,
   .byMinute, .bySecond, .bySetPos]

theorem keys_finishSaid (finish : Finish) : ∃ key, (key = .untilBound ∨ key = .count) ∧
    ((finishSaid finish).map RulePart.key).Sublist [key] := by
  cases finish with
  | never => exact ⟨.count, Or.inr rfl, List.nil_sublist _⟩
  | count n => exact ⟨.count, Or.inr rfl, List.Sublist.refl _⟩
  | untilLocal | untilUtc => exact ⟨.untilBound, Or.inl rfl, List.Sublist.refl _⟩

theorem keys_said (rule : Rule) : ∃ finish, (finish = .untilBound ∨ finish = .count) ∧
    (rule.said.map RulePart.key).Sublist (keysWith finish) := by
  obtain ⟨finish, hfinish, hkeys⟩ := keys_finishSaid rule.finish
  refine ⟨finish, hfinish, ?_⟩
  have hweek : ((rule.weekStart.toList.map RulePart.wkst).map RulePart.key).Sublist [.wkst] := by
    cases rule.weekStart <;> simp [RulePart.key]
  have hinterval : ((if rule.interval = 1 then [] else [RulePart.interval rule.interval]).map
      RulePart.key).Sublist [.interval] := by
    split <;> simp [RulePart.key]
  have hlist : ∀ {β : Type} {kind : List β → RulePart} {values : List β},
      ((listSaid kind values).map RulePart.key).Sublist [(kind values).key] := by
    intro β kind values
    unfold listSaid
    split <;> simp
  unfold said
  simp only [List.map_append]
  exact (((((((((((((List.Sublist.refl [RuleKey.freq]).append hweek).append hkeys).append
    hinterval).append hlist).append hlist).append hlist).append hlist).append hlist).append
    hlist).append hlist).append hlist).append hlist)

theorem nodup_keysWith {finish : RuleKey} (h : finish = .untilBound ∨ finish = .count) :
    (keysWith finish).Nodup ∧
      ¬ (RuleKey.untilBound ∈ keysWith finish ∧ RuleKey.count ∈ keysWith finish) := by
  rcases h with rfl | rfl <;> decide

/-- **The parts of a rule describe it.** -/
theorem ofParts_said (whole : String) (rule : Rule) : ofParts whole rule.said =
    .ok { rule with effect := .includes, parameters := .empty } := by
  obtain ⟨finish, hfinish, hkeys⟩ := keys_said rule
  have hends : ¬ (RuleKey.untilBound ∈ rule.said.map RulePart.key ∧
      RuleKey.count ∈ rule.said.map RulePart.key) :=
    fun h => (nodup_keysWith hfinish).2 ⟨hkeys.subset h.1, hkeys.subset h.2⟩
  rw [ofParts, if_neg hends]
  split
  · rename_i frequency hfound
    obtain rfl : rule.frequency = frequency := by simpa [said] using hfound
    rw [withParts_said]
  · rename_i hnone
    exact absurd hnone (by simp [said])

/-! ### Reading a rule -/

/-- Whether a rule can be written: its fields lie in their ranges, and so does its
bound. -/
structure Writable (rule : Rule) : Prop where
  inRange : rule.InRange
  untilLocal : ∀ bound, rule.finish = .untilLocal bound → bound.Writable
  untilUtc : ∀ bound, rule.finish = .untilUtc bound → bound.Writable ∧ bound.hasTime = true

theorem writable_of_mem_listSaid {kind : List α → RulePart} {values : List α}
    (hbound : ∀ bound, kind values ≠ .finish bound)
    (htokens : values ≠ [] → (kind values).tokens ≠ []) (hrange : (kind values).InRange) :
    ∀ part ∈ listSaid kind values, part.Writable := by
  unfold listSaid
  split
  · simp
  · rename_i hne
    refine List.forall_mem_singleton.2 ⟨hrange, htokens (by simpa using hne), ?_⟩
    exact fun bound heq => absurd heq (hbound bound)

theorem writable_of_mem_finishSaid (h : rule.Writable) :
    ∀ part ∈ finishSaid rule.finish, part.Writable := by
  cases hfinish : rule.finish with
  | never => simp [finishSaid]
  | count n =>
    exact List.forall_mem_singleton.2 ⟨h.inRange.count n hfinish, List.cons_ne_nil _ _, by simp⟩
  | untilLocal bound =>
    refine List.forall_mem_singleton.2 ⟨by simp [RulePart.InRange], List.cons_ne_nil _ _, ?_⟩
    rintro _ ⟨⟩
    exact h.untilLocal bound hfinish
  | untilUtc bound =>
    refine List.forall_mem_singleton.2 ⟨by simp [RulePart.InRange], List.cons_ne_nil _ _, ?_⟩
    rintro _ ⟨⟩
    exact h.untilUtc bound hfinish

/-- What a rule in its ranges says can be written. -/
theorem writable_of_mem_said (h : rule.Writable) : ∀ part ∈ rule.said, part.Writable := by
  have hlist : ∀ {β : Type} {kind : List β → RulePart} {values : List β},
      (∀ bound, kind values ≠ .finish bound) → (values ≠ [] → (kind values).tokens ≠ []) →
      (kind values).InRange → ∀ part ∈ listSaid kind values, part.Writable :=
    writable_of_mem_listSaid
  have hr := h.inRange
  unfold said
  simp only [List.forall_mem_append]
  refine ⟨⟨⟨⟨⟨⟨⟨⟨⟨⟨⟨⟨?_, ?_⟩, writable_of_mem_finishSaid h⟩, ?_⟩, ?_⟩, ?_⟩, ?_⟩, ?_⟩, ?_⟩, ?_⟩,
    ?_⟩, ?_⟩, ?_⟩
  · exact List.forall_mem_singleton.2 ⟨trivial, List.cons_ne_nil _ _, by simp⟩
  · exact List.forall_mem_map.2 fun day _ => ⟨trivial, List.cons_ne_nil _ _, by simp⟩
  · split
    · simp
    · exact List.forall_mem_singleton.2 ⟨hr.interval, List.cons_ne_nil _ _, by simp⟩
  all_goals refine hlist (by simp) (by simp [RulePart.tokens]) ?_
  · exact hr.byYearDay
  · exact hr.byMonth
  · exact hr.byMonthDay
  · exact hr.byWeekNo
  · exact hr.byDay
  · exact hr.byHour
  · exact hr.byMinute
  · exact hr.bySecond
  · exact hr.bySetPos

/-- **A rule without its name and parameters is read from what is written of it.** -/
theorem read_body (h : rule.Writable) : read rule.body =
    .ok { rule with effect := .includes, parameters := .empty } := by
  have hwritable := writable_of_mem_said h
  have hfields : fields ';' rule.body.toList = rule.said.map RulePart.chars := by
    rw [body, String.toList_ofList, parts_eq_said, fields_join (by simp [said])]
    refine List.forall_mem_map.2 fun part hpart hmem => ?_
    rcases RulePart.of_mem_chars (hwritable part hpart) hmem with h | h | h <;>
      exact absurd h (by decide)
  obtain ⟨finish, hfinish, hkeys⟩ := keys_said rule
  have hparts : readPartsAfter rule.body [] (fields ';' rule.body.toList) = .ok rule.said := by
    rw [hfields]
    exact readPartsAfter_chars hwritable (hkeys.nodup (nodup_keysWith hfinish).1)
      fun _ _ => List.not_mem_nil
  rw [read, inProduction_eq_ok, bind_eq_ok]
  exact ⟨rule.said, hparts, bare_eq_ok.2 (ofParts_said rule.body rule)⟩

/-! ### Whole texts -/

theorem not_isBreak_body (h : rule.Writable) : ∀ c ∈ rule.body.toList, isBreak c = false := by
  intro c hc
  rw [body, String.toList_ofList, parts_eq_said] at hc
  rcases mem_join hc with rfl | ⟨item, hitem, hc⟩
  · rfl
  · obtain ⟨part, hpart, rfl⟩ := List.mem_map.1 hitem
    rcases RulePart.of_mem_chars (writable_of_mem_said h part hpart) hc with hname | rfl | rfl
    · exact isBreak_of_isNameChar hname
    · rfl
    · rfl

theorem writable_line (h : rule.Writable) (hps : rule.parameters.Extensions) :
    rule.line.Writable where
  name := by
    show IsToken rule.effect.ruleName.toList
    cases rule.effect <;> decide
  parameters := hps.writable
  value := not_isBreak_body h

/-- What is written of a rule begins with its frequency. -/
theorem equals_mem_body (rule : Rule) : '=' ∈ rule.body.toList := by
  have hpart : part "FREQ" rule.frequency.name.toList ∈ rule.parts := by simp [parts]
  rw [body, String.toList_ofList]
  exact subset_join hpart (List.mem_append_right _ List.mem_cons_self)

/-- What is written of a rule is not taken for a rule of vCalendar 1.0. -/
theorem modernize_text (rule : Rule) : Legacy.modernize rule.text = rule.text := by
  have htext : rule.text.toList = (rule.line.name.toList ++ parameterChars rule.line.parameters) ++
      ':' :: rule.body.toList := by
    rw [text, ContentLine.text, String.toList_ofList, chars_eq, List.append_assoc]
    rfl
  have hbehind : '=' ∈ Legacy.behindColon rule.text.toList := by
    rw [htext]
    exact Legacy.mem_behindColon_append (equals_mem_body rule)
  rw [Legacy.modernize, Legacy.modernizeChars_of_equals hbehind, String.ofList_toList]

/-- The content line of a rule is read as the rule. -/
theorem ofLine_line (h : rule.Writable) (hps : rule.parameters.Extensions) :
    Rule.ofLine rule.effect rule.line = .ok rule := by
  rw [Rule.ofLine, bind_eq_ok]
  refine ⟨rule.parameters, Parameters.read_raw hps.regular fun _ => hps.isExtension, ?_⟩
  exact bind_eq_ok.2 ⟨_, read_body h, rfl⟩

/-- **Every rule survives being written**: what is written of a rule in its ranges with
extension parameters is read as that rule, in any zone and with any database. -/
theorem read_written (h : rule.Writable) (hps : rule.parameters.Extensions)
    (database : Database) (zone : Zone) :
    Line.readIn database rule.text zone = .ok (.rule rule) := by
  have hname : Text.upper rule.line.name = rule.effect.ruleName := by
    show Text.upper rule.effect.ruleName = rule.effect.ruleName
    cases rule.effect <;> decide
  rw [Line.readIn, modernize_text, bind_eq_ok]
  refine ⟨rule.line, ContentLine.read_text (writable_line h hps), ?_⟩
  rw [inProduction_eq_ok, hname, Line.ofContentLine_ruleName]
  exact map_eq_ok.2 ⟨rule, ofLine_line h hps, rfl⟩

/-- The last Friday of every other month and all its Mondays, excluded up to the end of
a year in UTC. -/
def lastFridays : Rule :=
  { Rule.every .monthly with
    effect := .excludes
    finish := .untilUtc (.atTime 2006 12 31 23 59 59)
    interval := 2
    byDay := [⟨-1, .friday⟩, .every .monday]
    parameters := ⟨[.extension "X-NOTE" ["from: office", ""], .extension "X-0" ["a;b"]]⟩ }

/-- A rule with a bound in UTC and with values of parameters that need quotes. -/
theorem read_written_lastFridays : (lastFridays.Writable ∧ lastFridays.parameters.Extensions) ∧
    Line.read lastFridays.text .utc = .ok (.rule lastFridays) := by
  have hwritable : lastFridays.Writable := by
    refine ⟨?_, fun bound hbound => ?_, fun bound hbound => ?_⟩
    · constructor <;> simp [lastFridays, Rule.every, OrdinalWeekday.every]
    · exact absurd hbound (by simp [lastFridays])
    · obtain rfl := Finish.untilUtc.inj hbound
      exact ⟨⟨by decide, by decide, by decide⟩, rfl⟩
  have hextensions : lastFridays.parameters.Extensions := by
    refine ⟨fun p hp => ?_, by decide⟩
    rcases List.mem_cons.1 hp with rfl | hp
    · exact ⟨"NOTE".toList, _, rfl, by decide, by decide, by decide⟩
    · obtain rfl := List.mem_singleton.1 hp
      exact ⟨"0".toList, _, rfl, by decide, by decide, by decide⟩
  exact ⟨⟨hwritable, hextensions⟩, read_written hwritable hextensions .known .utc⟩

end Rule

end Recurrence
