/-
# Date lists as they are written

A list of dates that was read is read again from what is written of it as the same
list, exactly when its line names no zone or the zone keeps each of its moments:
they are written as the clocks of the zone show them, whatever they were marked as.
This holds whichever zones a database knows.

Key definitions: `DateList.moments`, `DateList.Agrees`.
Key theorems: `DateList.read_line_iff`, `Line.rereads_iff`, `Line.not_rereads_repeated`.
-/
import Recurrence.Proofs.Set.DateItems
import Recurrence.Proofs.Text.Legacy
import Recurrence.Proofs.Text.Parameters

namespace Recurrence

open Reading Text ContentLine

namespace DateList

variable {database : Database} {effect : Effect} {line : ContentLine} {zone : Zone}

/-! ### Items and their texts -/

/-- The moments of a list: its dates and the ends of its periods. -/
def moments (list : DateList) : List Moment :=
  list.dates ++ list.periods.map Period.finish

variable {parameters : Parameters} {named : Option NamedZone} {items : List Item}
  {declared : Option ValueType}

theorem forall_moments {P : Moment → Prop} :
    (∀ m ∈ (ofItems effect parameters named items).moments, P m) ↔
      ∀ item ∈ items, ∀ m ∈ item.moments, P m := by
  simp only [moments, ofItems, List.forall_mem_append, List.forall_mem_map, List.mem_filterMap]
  constructor
  · rintro ⟨hstarts, hends⟩ item hitem
    cases item with
    | moment m => exact List.forall_mem_singleton.2 (hstarts _ hitem)
    | period p =>
      simp only [Item.moments, List.forall_mem_cons, List.not_mem_nil, IsEmpty.forall_iff,
        implies_true, and_true]
      exact ⟨hstarts _ hitem, hends p ⟨_, hitem, rfl⟩⟩
  · intro h
    refine ⟨fun item hitem => ?_, ?_⟩
    · cases item <;> exact h _ hitem _ List.mem_cons_self
    · rintro p ⟨item, hitem, hperiod⟩
      cases item with
      | moment => exact absurd hperiod (by simp [Item.period?])
      | period p' =>
        obtain rfl := Option.some.inj hperiod
        exact h _ hitem _ (List.mem_cons_of_mem _ List.mem_cons_self)

/-- The items of a line of periods are its periods. -/
theorem eq_periods (h : ∀ item ∈ items, item.Fits declared) (hd : declared = some .period) :
    items = (items.filterMap Item.period?).map Item.period := by
  induction items with
  | nil => rfl
  | cons item items ih =>
    rw [List.forall_mem_cons] at h
    cases item with
    | moment => exact absurd hd h.1.1
    | period p =>
      simp only [List.filterMap_cons, Item.period?, List.map_cons, ← ih h.2]

/-- The items of any other line are its dates. -/
theorem eq_moments (h : ∀ item ∈ items, item.Fits declared) (hd : declared ≠ some .period) :
    items = (items.map Item.start).map Item.moment ∧ items.filterMap Item.period? = [] := by
  induction items with
  | nil => exact ⟨rfl, rfl⟩
  | cons item items ih =>
    rw [List.forall_mem_cons] at h
    cases item with
    | moment m =>
      obtain ⟨hitems, hnone⟩ := ih h.2
      simp only [List.map_cons, Item.start, ← hitems, List.filterMap_cons, Item.period?, hnone,
        and_self]
    | period => exact absurd h.1.1 hd

/-- The items of one type are told by their starts and the periods among them. -/
theorem items_inj {items' : List Item} (h : ∀ item ∈ items, item.Fits declared)
    (h' : ∀ item ∈ items', item.Fits declared)
    (hstarts : items.map Item.start = items'.map Item.start)
    (hperiods : items.filterMap Item.period? = items'.filterMap Item.period?) :
    items = items' := by
  by_cases hd : declared = some .period
  · rw [eq_periods h hd, eq_periods h' hd, hperiods]
  · rw [(eq_moments h hd).1, (eq_moments h' hd).1, hstarts]

/-- What is written of a list are its items. -/
theorem value_eq (hne : items ≠ []) (h : ∀ item ∈ items, item.Fits declared) :
    (ofItems effect parameters named items).line.value =
      joinWith ',' (items.map (Item.text named)) := by
  by_cases hd : declared = some .period
  · have hitems := eq_periods h hd
    have hsome : (items.filterMap Item.period?).isEmpty = false := by
      rw [List.isEmpty_eq_false_iff]
      intro hnone
      rw [hnone] at hitems
      exact hne hitems
    have htexts : items.map (Item.text named) =
        (items.filterMap Item.period?).map (Period.textWith (momentText named)) := by
      conv => lhs; rw [hitems, List.map_map]
      rfl
    rw [htexts]
    simp only [line, ofItems, hsome, Bool.false_eq_true, if_false]
  · obtain ⟨hitems, hnone⟩ := eq_moments h hd
    have htexts : items.map (Item.text named) =
        (items.map Item.start).map (momentText named) := by
      conv => lhs; rw [hitems, List.map_map]
      rfl
    rw [htexts]
    simp only [line, ofItems, hnone, List.isEmpty_nil, if_true]

/-- What is written of an item are characters of names, and the slash of a period. -/
theorem of_mem_text {item : Item} {c : Char} (h : c ∈ (item.text named).toList) :
    isNameChar c = true ∨ c = '/' := by
  cases item with
  | moment m => exact Or.inl ((isToken_momentText named m).chars c h)
  | period p =>
    simp only [Item.text, Period.textWith, String.toList_append, List.mem_append] at h
    rcases h with (h | h) | h
    · exact Or.inl ((isToken_momentText named _).chars c h)
    · exact Or.inr (List.mem_singleton.1 h)
    · exact Or.inl ((isToken_momentText named _).chars c h)

/-- The items are read from what is written of them when each of them is. -/
theorem readItems_texts_iff (hne : items ≠ []) {zone : Zone} :
    readItems declared zone (joinWith ',' (items.map (Item.text named))) = .ok items ↔
      ∀ item ∈ items, readItem declared zone (item.text named).toList = .ok item := by
  have hnonempty : ∀ item : Item, (item.text named).toList ≠ [] := by
    intro item
    cases item with
    | moment m => exact (isToken_momentText named m).ne_nil
    | period p =>
      simp only [Item.text, Period.textWith, String.toList_append]
      exact List.append_ne_nil_of_right_ne_nil _ (isToken_momentText named _).ne_nil
  have hfields : fields ',' (joinWith ',' (items.map (Item.text named))).toList =
      items.map fun item => (item.text named).toList := by
    rw [joinWith, String.toList_ofList, List.map_map, fields_join (by simpa using hne)]
    · rfl
    · refine List.forall_mem_map.2 fun item _ hcomma => ?_
      rcases of_mem_text hcomma with h | h <;> exact absurd h (by decide)
  have htrim : ∀ item : Item, trimChars (item.text named).toList = (item.text named).toList := by
    refine fun item => trimChars_eq_self fun c hc => ?_
    rcases of_mem_text hc with h | rfl
    · exact isBlank_of_isNameChar h
    · rfl
  rw [readItems, hfields, mapM_eq_ok, List.forall₂_map_left_iff, List.forall₂_same]
  refine forall₂_congr fun item _ => ?_
  simp only [htrim, List.isEmpty_iff, if_neg (hnonempty item)]

/-! ### Parameters and types -/

/-- Whether two lists are the same but for their parameters. -/
structure Agrees (list' list : DateList) : Prop where
  effect : list'.effect = list.effect
  valueType : list'.valueType = list.valueType
  zone : list'.zone = list.zone
  dates : list'.dates = list.dates
  periods : list'.periods = list.periods

/-- What is written of the parameters: themselves, or the type of the values besides,
which is that of dates. -/
theorem allParameters_cases (effect : Effect) (parameters : Parameters)
    (named : Option NamedZone) (items : List Item) :
    let list := ofItems effect parameters named items
    (list.allParameters = parameters ∧
        (parameters.valueType? = none → list.valueType = .dateTime)) ∨
      parameters.valueType? = none ∧ (∀ item ∈ items, item.start.hasTime = false) ∧
        list.valueType = .date ∧ list.allParameters = parameters.push (.valueType .date) := by
  intro list
  cases htype : parameters.valueType? with
  | some type =>
    refine Or.inl ⟨if_neg ?_, by simp⟩
    simp [list, ofItems, htype]
  | none =>
    by_cases htimes : (items.map Item.start).any Moment.hasTime = true
    · have hdateTime : list.valueType = .dateTime := by
        simp only [list, ofItems, htype, Option.getD_none, if_pos htimes]
      exact Or.inl ⟨if_neg fun h => h.2 hdateTime, fun _ => hdateTime⟩
    · have hdate : list.valueType = .date := by
        simp only [list, ofItems, htype, Option.getD_none, if_neg htimes]
      refine Or.inr ⟨rfl, ?_, hdate, ?_⟩
      · simpa using htimes
      · rw [allParameters, if_pos ⟨by simp [list, ofItems, htype], by simp [hdate]⟩, hdate]
        rfl

/-- A line without a type of values has no parameter of its name. -/
theorem ne_value_of_valueType? (hregular : parameters.Regular)
    (hnone : parameters.valueType? = none) : ∀ p ∈ parameters.items, p.raw.name ≠ "VALUE" := by
  intro p hp
  have hp' := List.findSome?_eq_none_iff.1 hnone p hp
  cases p with
  | zone => exact (by decide : "TZID" ≠ "VALUE")
  | valueType => exact absurd hp' (by simp)
  | extension name values => exact (Parameter.ne_of_isExtensionName (hregular.items _ hp).1).2

theorem regular_allParameters (hregular : parameters.Regular) :
    (ofItems effect parameters named items).allParameters.Regular := by
  rcases allParameters_cases effect parameters named items with ⟨heq, -⟩ | ⟨hnone, -, -, heq⟩
  · rwa [heq]
  · rw [heq]
    refine ⟨?_, ?_⟩
    · exact List.forall_mem_append.2 ⟨hregular.items, List.forall_mem_singleton.2 trivial⟩
    · rw [Parameters.push, List.map_append, List.map_singleton, List.nodup_append]
      refine ⟨hregular.names, List.nodup_singleton _, ?_⟩
      simp only [List.forall_mem_map, List.forall_mem_singleton]
      exact ne_value_of_valueType? hregular hnone

theorem zoneIn_allParameters :
    zoneIn database (ofItems effect parameters named items).allParameters =
      zoneIn database parameters := by
  rcases allParameters_cases effect parameters named items with ⟨heq, -⟩ | ⟨-, -, -, heq⟩
  · rw [heq]
  · have hname : (parameters.push (.valueType .date)).zoneName? = parameters.zoneName? := by
      simp [Parameters.push, Parameters.zoneName?, List.findSome?_append]
    rw [heq, zoneIn, zoneIn, hname]

/-- Items fit the type that is written as well. -/
theorem fits_allParameters (h : ∀ item ∈ items, item.Fits parameters.valueType?) :
    ∀ item ∈ items,
      item.Fits (ofItems effect parameters named items).allParameters.valueType? := by
  rcases allParameters_cases effect parameters named items with ⟨heq, -⟩ | ⟨hnone, hdates, -, heq⟩
  · rwa [heq]
  · have htype : (parameters.push (.valueType .date)).valueType? = some .date := by
      simp only [Parameters.valueType?] at hnone
      simp [Parameters.push, Parameters.valueType?, List.findSome?_append, hnone]
    rw [heq, htype]
    intro item hitem
    have hfits := h item hitem
    cases item with
    | moment m => exact ⟨by decide, fun _ => hdates _ hitem, by simp⟩
    | period => exact absurd hfits.1 (by simp [hnone])

/-- The type of the values is that of the list again. -/
theorem agrees_allParameters (effect : Effect) (parameters : Parameters)
    (named : Option NamedZone) (items : List Item) :
    (ofItems effect (ofItems effect parameters named items).allParameters named items).Agrees
      (ofItems effect parameters named items) := by
  refine ⟨rfl, ?_, rfl, rfl, rfl⟩
  rcases allParameters_cases effect parameters named items with ⟨heq, -⟩ | ⟨hnone, -, htype, heq⟩
  · rw [heq]
  · rw [htype, heq]
    simp only [Parameters.valueType?] at hnone
    simp [ofItems, Parameters.push, Parameters.valueType?, List.findSome?_append, hnone]

/-! ### Reading a list again -/

/-- What the items of a list that was read are like. -/
theorem items_of_readItems {value : String} (h : readItems declared zone value = .ok items) :
    items ≠ [] ∧ (∀ item ∈ items, item.Fits declared) ∧
      ((∀ item ∈ items, ∀ m ∈ item.moments, 0 ≤ m.date.year ∧ m.date.year ≤ 9999) →
        ∀ item ∈ items, ∀ m ∈ item.moments, m.Writable) := by
  refine ⟨?_, fun item hitem => ?_, fun hyears item hitem => ?_⟩
  · rintro rfl
    exact fields_ne_nil _ _ (List.forall₂_nil_right_iff.1 (mapM_eq_ok.1 h))
  · obtain ⟨field, -, hread⟩ := exists_of_mem_readItems h hitem
    exact fits_of_readItem hread
  · obtain ⟨field, -, hread⟩ := exists_of_mem_readItems h hitem
    exact writable_of_readItem hread (hyears item hitem)

/-- **When a list is read again from its own line.** -/
theorem read_line_iff {list : DateList} (h : read database effect line zone = .ok list)
    (hyears : ∀ m ∈ list.moments, 0 ≤ m.date.year ∧ m.date.year ≤ 9999)
    (hz : ∀ named ∈ list.zone, named.table.Sparse) :
    (∃ list', read database effect list.line zone = .ok list' ∧ list'.Agrees list) ↔
      ∀ named ∈ list.zone, ∀ m ∈ list.moments, named.Keeps m := by
  obtain ⟨parameters, named, items, hparameters, hnamed, hitems, rfl⟩ := read_eq_ok_iff.1 h
  have hregular := Parameters.regular_of_read hparameters
  obtain ⟨hne, hfits, hwritable⟩ := items_of_readItems hitems
  have hwritable := hwritable (forall_moments.1 hyears)
  set list := ofItems effect parameters named items with hlist
  have hfits' : ∀ item ∈ items, item.Fits list.allParameters.valueType? :=
    fits_allParameters hfits
  have hwritten : readItems list.allParameters.valueType?
      ((named.map NamedZone.zone).getD zone) list.line.value = .ok items ↔
        ∀ n ∈ list.zone, ∀ m ∈ list.moments, n.Keeps m := by
    rw [hlist, value_eq hne hfits, ← hlist, readItems_texts_iff hne]
    have hkeeps : (∀ n ∈ list.zone, ∀ m ∈ list.moments, n.Keeps m) ↔
        ∀ item ∈ items, ∀ m ∈ item.moments, ∀ n ∈ named, n.Keeps m := by
      rw [← @forall_moments effect parameters named items fun m => ∀ n ∈ named, n.Keeps m]
      exact ⟨fun h m hm n hn => h n hn m hm, fun h n hn m hm => h m hm n hn⟩
    rw [hkeeps]
    exact forall₂_congr fun item hitem =>
      readItem_text_iff (hfits' item hitem) (hwritable item hitem) hz
  have hagain : Parameters.read .dates list.line.parameters = .ok list.allParameters :=
    Parameters.read_raw (regular_allParameters hregular) (by simp)
  rw [← hwritten]
  constructor
  · rintro ⟨list', hread, hagrees⟩
    obtain ⟨parameters', named', items', hparameters', hnamed', hitems', rfl⟩ :=
      read_eq_ok_iff.1 hread
    obtain rfl := Except.ok.inj (hagain.symm.trans hparameters')
    obtain rfl : named = named' := hagrees.zone.symm
    rw [hitems', items_inj (items_of_readItems hitems').2.1 hfits' hagrees.dates
      hagrees.periods]
  · intro hread
    have hnamed' : zoneIn database list.allParameters = .ok named :=
      zoneIn_allParameters.trans hnamed
    refine ⟨ofItems effect list.allParameters named items, ?_, agrees_allParameters _ _ _ _⟩
    exact read_eq_ok_iff.2 ⟨_, named, items, hagain, hnamed', hread, rfl⟩

theorem writable_line {list : DateList} (h : read database effect line zone = .ok list)
    (hunquoted : ∀ p ∈ line.parameters, p.Unquoted)
    (hbreaks : ∀ p ∈ list.parameters.raw, ∀ v ∈ p.values, ∀ c ∈ v.toList, isBreak c = false) :
    list.line.Writable := by
  obtain ⟨parameters, named, items, hparameters, -, hitems, rfl⟩ := read_eq_ok_iff.1 h
  obtain ⟨hne, hfits, -⟩ := items_of_readItems hitems
  have hwritable : ∀ p ∈ parameters.raw, p.Writable := fun p hp =>
    ⟨Parameters.unquoted_of_read hparameters hunquoted p hp, hbreaks p hp⟩
  refine ⟨?_, ?_, fun c hc => ?_⟩
  · show IsToken effect.datesName.toList
    cases effect <;> decide
  · show ∀ p ∈ (ofItems effect parameters named items).allParameters.raw, p.Writable
    rcases allParameters_cases effect parameters named items with ⟨heq, -⟩ | ⟨-, -, -, heq⟩
    · rwa [heq]
    · rw [heq, Parameters.raw, Parameters.push, List.map_append]
      refine List.forall_mem_append.2 ⟨hwritable, List.forall_mem_singleton.2 ?_⟩
      exact ⟨⟨by decide, by decide, by decide⟩, by decide⟩
  · rw [value_eq hne hfits, joinWith, String.toList_ofList] at hc
    rcases mem_join hc with rfl | ⟨text, htext, hc⟩
    · rfl
    · simp only [List.mem_map, exists_exists_and_eq_and] at htext
      obtain ⟨item, -, rfl⟩ := htext
      rcases of_mem_text hc with hname | rfl
      · exact isBreak_of_isNameChar hname
      · rfl

end DateList

/-! ### Whole texts -/

namespace Line

variable {database : Database} {zone : Zone} {text : String} {list : DateList}

/-- What is written of a list is no rule of vCalendar 1.0. -/
theorem modernize_datesText (list : DateList) : Legacy.modernize list.text = list.text := by
  have htext : list.text.toList = list.effect.datesName.toList ++
      (parameterChars list.line.parameters ++ ':' :: list.line.value.toList) := by
    rw [DateList.text, ContentLine.text, String.toList_ofList, chars_eq]
    rfl
  have hname : list.effect.datesName.toList = "RDATE".toList ∨
      list.effect.datesName.toList = "EXDATE".toList := by
    cases list.effect
    · exact Or.inl rfl
    · exact Or.inr rfl
  rw [Legacy.modernize, htext, Legacy.modernizeChars_of_name hname, ← htext, String.ofList_toList]

theorem readIn_text_iff {list' : DateList} (hline : list.line.Writable)
    (heffect : list'.effect = list.effect) :
    readIn database list.text zone = .ok (.dates list') ↔
      DateList.read database list.effect list.line zone = .ok list' := by
  have hname : Text.upper list.line.name = list.effect.datesName := by
    show Text.upper list.effect.datesName = list.effect.datesName
    cases list.effect <;> decide
  have hread : ContentLine.read (Legacy.modernize list.text) = .ok list.line := by
    rw [modernize_datesText]
    exact ContentLine.read_text hline
  rw [readIn, bind_eq_ok]
  constructor
  · rintro ⟨line, hline', hok⟩
    obtain rfl := Except.ok.inj (hread.symm.trans hline')
    exact heffect ▸ (ofContentLine_eq_dates.1 (inProduction_eq_ok.1 hok)).2
  · intro hlist
    refine ⟨list.line, hread, inProduction_eq_ok.2 (ofContentLine_eq_dates.2 ⟨?_, ?_⟩)⟩
    · rw [hname, heffect]
    · rwa [heffect]

/-- **When a list of dates survives being written.** A list that was read, of years of
four digits and without line breaks in its parameters, is read again from what is
written of it in the same zone, exactly when the zone of its line, if there is one,
keeps each of its moments. -/
theorem rereads_iff (h : readIn database text zone = .ok (.dates list))
    (hyears : ∀ m ∈ list.moments, 0 ≤ m.date.year ∧ m.date.year ≤ 9999)
    (hbreaks : ∀ p ∈ list.parameters.raw, ∀ v ∈ p.values, ∀ c ∈ v.toList, isBreak c = false)
    (hz : ∀ named ∈ list.zone, named.table.Sparse) :
    (∃ list', readIn database list.text zone = .ok (.dates list') ∧ list'.Agrees list) ↔
      ∀ named ∈ list.zone, ∀ m ∈ list.moments, named.Keeps m := by
  obtain ⟨line, hline, -, hread⟩ := dates_of_readIn h
  have hwritable := DateList.writable_line hread (unquoted_of_read hline) hbreaks
  rw [← DateList.read_line_iff hread hyears hz]
  refine exists_congr fun list' => ?_
  constructor
  · rintro ⟨hok, hagrees⟩
    exact ⟨(readIn_text_iff hwritable hagrees.effect).1 hok, hagrees⟩
  · rintro ⟨hok, hagrees⟩
    exact ⟨(readIn_text_iff hwritable hagrees.effect).2 hok, hagrees⟩

/-- The list of one line that names New York. -/
def inNewYork (dates : List Moment) : DateList where
  effect := .includes
  valueType := .dateTime
  zone := some ⟨"America/New_York", .newYork⟩
  dates
  periods := []
  parameters := ⟨[.zone "America/New_York"]⟩

theorem newYork_sparse : TransitionTable.newYork.Sparse :=
  TransitionTable.sparse_of_isChain (by decide +kernel) (by decide +kernel)

/-- A time that the clocks of New York show twice, without a mark, and a date. -/
theorem rereads_iff_newYork :
    let text := "RDATE;TZID=America/New_York:20061029T013000,20061030"
    let list := inNewYork [.atTime 2006 10 29 5 30 0, .onDate 2006 10 30]
    readIn .known text .utc = .ok (.dates list) ∧
      ((∃ list', readIn .known list.text .utc = .ok (.dates list') ∧
        list'.Agrees list) ↔ ∀ named ∈ list.zone, ∀ m ∈ list.moments, named.Keeps m) := by
  have hread : readIn .known "RDATE;TZID=America/New_York:20061029T013000,20061030" .utc =
      .ok (.dates (inNewYork [.atTime 2006 10 29 5 30 0, .onDate 2006 10 30])) :=
    eq_ok_of_toOption (by decide +kernel)
  refine ⟨hread, rereads_iff hread (by decide) (by decide) fun named hnamed => ?_⟩
  obtain rfl := Option.some.inj hnamed
  exact newYork_sparse

/-- **An instant that the clocks show for the second time is lost.** What is written of
half past six in UTC is half past one in New York, which is read as half past
five. -/
theorem not_rereads_repeated :
    let text := "RDATE;TZID=America/New_York:20061029T063000Z"
    let list := inNewYork [.atTime 2006 10 29 6 30 0]
    let list' := inNewYork [.atTime 2006 10 29 5 30 0]
    (read text .utc = .ok (.dates list) ∧ TransitionTable.newYork.Sparse ∧
        (∀ m ∈ list.moments, 0 ≤ m.date.year ∧ m.date.year ≤ 9999) ∧
        ∀ p ∈ list.parameters.raw, ∀ v ∈ p.values, ∀ c ∈ v.toList, isBreak c = false) ∧
      list.text = "RDATE;TZID=America/New_York:20061029T013000" ∧
      read list.text .utc = .ok (.dates list') ∧ ¬ list'.Agrees list := by
  refine ⟨⟨eq_ok_of_toOption (by decide +kernel), newYork_sparse, by decide, by decide⟩,
    by decide +kernel, eq_ok_of_toOption (by decide +kernel), fun hagrees => ?_⟩
  exact absurd hagrees.dates (by decide)

end Line

end Recurrence
