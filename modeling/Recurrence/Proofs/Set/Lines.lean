/-
# What the lines of a text hold

Every moment that a line of a text lists is written in one of its fields, by itself
or as the start of a period, as a valid moment. Unless it is marked as UTC there, it
was read on the clocks of a zone and converted, whichever zones a database knows. A
rule that a line gives lies in its ranges.

Key definitions: `DateList.startTexts`, `Line.Writes`.
Key theorems: `Moment.isValid_of_readMarked`, `Line.exists_written`,
`Line.inRange_of_readAllIn`.
-/
import Recurrence.Line
import Recurrence.Proofs.Reading
import Recurrence.Proofs.Rule.Parsed

namespace Recurrence

open Reading

/-- A moment that is read is valid. -/
theorem Moment.isValid_of_readMarked {text : String} {m : Moment} {utc : Bool}
    (h : readMarked text = .ok (m, utc)) : m.IsValid := by
  unfold readMarked readChars at h
  simp only [bind_eq_ok, ite_else_throw_eq_ok] at h
  obtain ⟨-, ⟨timed, marked⟩, -, year, -, month, -, day, -, hdate, h⟩ := h
  cases timed with
  | false =>
    obtain ⟨rfl, -⟩ := Prod.mk.inj (Except.ok.inj h)
    exact ⟨hdate, by simp⟩
  | true =>
    simp only [if_true, bind_eq_ok, ite_throw_eq_ok, pure_eq_ok, Prod.mk.injEq] at h
    obtain ⟨hour, -, minute, -, second, -, hbounds, rfl, -⟩ := h
    refine ⟨hdate, fun t ht => ?_⟩
    obtain rfl := Option.some.inj ht
    unfold TimeOfDay.of
    split
    · exact ⟨by decide, by decide, by decide⟩
    · simp only
      omega

namespace DateList

/-! ### One field -/

/-- Where the moment of a field may be written: in the field, or in its part
before the slash of a period. -/
def startTexts (field : List Char) : List (List Char) :=
  [field, field.takeWhile (· != '/')]

theorem readMoment_eq_ok {zone : Zone} {text : List Char} {m : Moment} :
    readMoment zone text = .ok m ↔ ∃ written utc,
      Moment.readMarked (String.ofList text) = .ok (written, utc) ∧
        (if utc = true then written else zone.localToUtc written) = m := by
  rw [readMoment, map_eq_ok]
  exact Prod.exists

theorem start_of_readPeriod {zone : Zone} {text : List Char} {p : Period}
    (h : readPeriod zone text = .ok p) :
    readMoment zone (text.takeWhile (· != '/')) = .ok p.start := by
  unfold readPeriod at h
  cases htext : text.dropWhile (· != '/') with
  | nil =>
    rw [htext] at h
    exact absurd h throw_ne_ok
  | cons slash finish =>
    rw [htext] at h
    obtain ⟨start, hstart, hperiod⟩ := bind_eq_ok.1 h
    have hbetween : ∀ {finish : Moment}, Period.between start finish = .ok p → p.start = start := by
      intro finish hp
      rw [(Period.between_eq_ok_iff.1 hp).2.2]
    suffices hp : p.start = start by rw [hstart, hp]
    dsimp only at hperiod
    split at hperiod
    · obtain ⟨period, hread, hp⟩ := bind_eq_ok.1 hperiod
      obtain ⟨seconds, -, rfl⟩ := map_eq_ok.1 hread
      rw [mapError_eq_ok, Period.lasting] at hp
      split at hp
      · exact absurd hp (by simp)
      · exact hbetween hp
    · obtain ⟨period, hread, hp⟩ := bind_eq_ok.1 hperiod
      obtain ⟨finish, -, rfl⟩ := map_eq_ok.1 hread
      exact hbetween (mapError_eq_ok.1 hp)

/-- What is read from a field begins with a moment written in it. -/
theorem start_of_readItem {declared : Option ValueType} {zone : Zone} {text : List Char}
    {item : Item} (h : readItem declared zone text = .ok item) :
    ∃ start ∈ startTexts text, readMoment zone start = .ok item.start := by
  unfold readItem at h
  by_cases hperiod : declared = some .period
  · rw [if_pos hperiod] at h
    obtain ⟨p, hp, rfl⟩ := map_eq_ok.1 h
    exact ⟨_, List.mem_cons_of_mem _ (List.mem_singleton_self _), start_of_readPeriod hp⟩
  · rw [if_neg hperiod] at h
    obtain ⟨m, hm, hchecks⟩ := bind_eq_ok.1 h
    simp only [ite_throw_eq_ok, pure_eq_ok] at hchecks
    obtain ⟨-, -, rfl⟩ := hchecks
    exact ⟨text, List.mem_cons_self, hm⟩

/-! ### One line -/

variable {database : Database} {effect : Effect} {line : ContentLine} {zone : Zone}
  {list : DateList}

theorem read_eq_ok_iff : read database effect line zone = .ok list ↔
    ∃ parameters named items, Parameters.read .dates line.parameters = .ok parameters ∧
      zoneIn database parameters = .ok named ∧
      readItems parameters.valueType? ((named.map NamedZone.zone).getD zone) line.value =
        .ok items ∧ ofItems effect parameters named items = list := by
  simp only [read, bind_eq_ok, bare_eq_ok, pure_eq_ok]
  constructor
  · rintro ⟨parameters, hparameters, named, hnamed, items, hitems, hlist⟩
    exact ⟨parameters, named, items, hparameters, hnamed, hitems, hlist⟩
  · rintro ⟨parameters, named, items, hparameters, hnamed, hitems, hlist⟩
    exact ⟨parameters, hparameters, named, hnamed, items, hitems, hlist⟩

theorem effect_of_read (h : read database effect line zone = .ok list) :
    list.effect = effect := by
  obtain ⟨parameters, named, items, -, -, -, rfl⟩ := read_eq_ok_iff.1 h
  rfl

/-- The dates of a list begin its items, which were read in some zone. -/
theorem dates_of_read (h : read database effect line zone = .ok list) :
    ∃ declared zone' items, readItems declared zone' line.value = .ok items ∧
      list.dates = items.map Item.start := by
  obtain ⟨parameters, named, items, -, -, hitems, rfl⟩ := read_eq_ok_iff.1 h
  exact ⟨_, _, items, hitems, rfl⟩

theorem exists_of_mem_readItems {declared : Option ValueType} {zone : Zone} {value : String}
    {items : List Item} (h : readItems declared zone value = .ok items) {item : Item}
    (hitem : item ∈ items) : ∃ field ∈ Text.fields ',' value.toList,
      readItem declared zone (Text.trimChars field) = .ok item := by
  obtain ⟨field, hfield, hread⟩ := (mem_of_mapM h item).1 hitem
  dsimp only at hread
  split at hread
  · exact absurd hread (by simp)
  · exact ⟨field, hfield, hread⟩

end DateList

namespace Line

variable {database : Database} {zone : Zone}

/-- Which content lines list dates. -/
theorem ofContentLine_eq_dates {name : String} {line : ContentLine} {list : DateList} :
    ofContentLine database name line zone = .ok (.dates list) ↔
      name = list.effect.datesName ∧
        DateList.read database list.effect line zone = .ok list := by
  constructor
  · intro h
    unfold ofContentLine at h
    split_ifs at h with hrule hexrule hdates hexdates
    · exact absurd h (by simp [map_eq_ok])
    · exact absurd h (by simp [map_eq_ok])
    · obtain ⟨list', hread, heq⟩ := map_eq_ok.1 h
      obtain rfl := Line.dates.inj heq
      rw [DateList.effect_of_read hread]
      exact ⟨hdates, hread⟩
    · obtain ⟨list', hread, heq⟩ := map_eq_ok.1 h
      obtain rfl := Line.dates.inj heq
      rw [DateList.effect_of_read hread]
      exact ⟨hexdates, hread⟩
  · rintro ⟨rfl, hread⟩
    rw [ofContentLine_datesName]
    exact map_eq_ok.2 ⟨list, hread, rfl⟩

/-- A list of dates is read from a line of its name. -/
theorem dates_of_readIn {text : String} {list : DateList}
    (h : readIn database text zone = .ok (.dates list)) :
    ∃ line, ContentLine.read (Legacy.modernize text) = .ok line ∧
      Text.upper line.name = list.effect.datesName ∧
      DateList.read database list.effect line zone = .ok list := by
  obtain ⟨line, hline, hread⟩ := bind_eq_ok.1 h
  exact ⟨line, hline, ofContentLine_eq_dates.1 (inProduction_eq_ok.1 hread)⟩

/-- A rule is read from a line of its own. -/
theorem rule_of_readIn {text : String} {rule : Rule}
    (h : readIn database text zone = .ok (.rule rule)) :
    ∃ effect line, Rule.ofLine effect line = .ok rule := by
  obtain ⟨line, -, hread⟩ := bind_eq_ok.1 h
  rw [inProduction_eq_ok, ofContentLine] at hread
  split_ifs at hread with hrule hexrule hdates hexdates
  · obtain ⟨rule', hrule', heq⟩ := map_eq_ok.1 hread
    exact ⟨_, line, Line.rule.inj heq ▸ hrule'⟩
  · obtain ⟨rule', hrule', heq⟩ := map_eq_ok.1 hread
    exact ⟨_, line, Line.rule.inj heq ▸ hrule'⟩
  · exact absurd hread (by simp [map_eq_ok])
  · exact absurd hread (by simp [map_eq_ok])

/-! ### All lines -/

/-- Whether a moment is written in a text as one that a line lists, with or without
the mark of UTC. -/
def Writes (text : String) (m : Moment) (utc : Bool) : Prop :=
  ∃ raw ∈ Folding.unfold text, ∃ line, ContentLine.read (Legacy.modernize raw) = .ok line ∧
    (∃ effect : Effect, Text.upper line.name = effect.datesName) ∧
    ∃ field ∈ Text.fields ',' line.value.toList,
      ∃ start ∈ DateList.startTexts (Text.trimChars field),
        Moment.readMarked (String.ofList start) = .ok (m, utc)

theorem Writes.isValid {text : String} {m : Moment} {utc : Bool} (h : Writes text m utc) :
    m.IsValid := by
  obtain ⟨raw, -, line, -, -, field, -, start, -, hread⟩ := h
  exact Moment.isValid_of_readMarked hread

variable {text : String} {lines : List Line}

/-- **A moment that a text lists is written in it**, on the clocks of some zone unless
it is marked as UTC. -/
theorem exists_written (h : readAllIn database text zone = .ok lines) {list : DateList}
    (hlist : .dates list ∈ lines) {m : Moment} (hm : m ∈ list.dates) :
    ∃ zone' written utc, Writes text written utc ∧
      (if utc = true then written else Zone.localToUtc zone' written) = m := by
  obtain ⟨raw, hraw, hline⟩ := (mem_of_mapM h _).1 hlist
  obtain ⟨line, hread, hname, hdates⟩ := dates_of_readIn hline
  obtain ⟨declared, zone', items, hitems, heq⟩ := DateList.dates_of_read hdates
  rw [heq] at hm
  obtain ⟨item, hitem, rfl⟩ := List.mem_map.1 hm
  obtain ⟨field, hfield, hfrom⟩ := DateList.exists_of_mem_readItems hitems hitem
  obtain ⟨start, hstart, hmoment⟩ := DateList.start_of_readItem hfrom
  obtain ⟨written, utc, hwritten, heq⟩ := DateList.readMoment_eq_ok.1 hmoment
  exact ⟨zone', written, utc,
    ⟨raw, hraw, line, hread, ⟨_, hname⟩, field, hfield, start, hstart, hwritten⟩, heq⟩

/-- **A rule that a text gives lies in its ranges.** -/
theorem inRange_of_readAllIn (h : readAllIn database text zone = .ok lines) {rule : Rule}
    (hrule : .rule rule ∈ lines) : rule.InRange := by
  obtain ⟨raw, -, hline⟩ := (mem_of_mapM h _).1 hrule
  obtain ⟨effect, line, hread⟩ := rule_of_readIn hline
  simp only [Rule.ofLine, bind_eq_ok, pure_eq_ok] at hread
  obtain ⟨parameters, -, body, hbody, rfl⟩ := hread
  exact { Rule.inRange_of_read hbody with }

end Line

end Recurrence
