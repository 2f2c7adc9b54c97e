/-
# Content lines as they are written

The values of parameters may be spelled in two ways, between quotes or without
separators, and are read up to the separator behind them either way. So a text is read
exactly when it spells a line, by its name, its parameters and its value, and the line
that it spells is what is read. From what is written of it a line is read when its names
are tokens, every parameter has a value, no value of a parameter holds a quote, and
nothing holds a line break. The parameters of every line that is read are of this kind,
apart from line breaks inside quotes.

Key definitions: `RawParameter.Unquoted`, `RawParameter.Writable`, `ContentLine.Writable`,
`ContentLine.SpellsParameters`, `ContentLine.SpellsLine`.
Key theorems: `ContentLine.read_eq_ok_iff`, `ContentLine.read_append`,
`ContentLine.read_text`, `ContentLine.unquoted_of_read`.
-/
import Recurrence.ContentLine.Read
import Recurrence.Proofs.Reading
import Recurrence.Proofs.Text.Fields
import Recurrence.Proofs.Text.Lines

namespace Recurrence

open ContentLine Reading Text

/-- Whether the name of a parameter is a token, and it has values that hold no
quotes. -/
structure RawParameter.Unquoted (p : RawParameter) : Prop where
  name : IsToken p.name.toList
  values : p.values ≠ []
  quote : ∀ v ∈ p.values, '"' ∉ v.toList

/-- Whether a parameter can be written: besides, no value holds a line break. -/
structure RawParameter.Writable (p : RawParameter) : Prop extends p.Unquoted where
  breaks : ∀ v ∈ p.values, ∀ c ∈ v.toList, isBreak c = false

namespace ContentLine

/-- Whether a line can be written: its name is a token, its parameters can be
written, and its value holds no line break. -/
structure Writable (line : ContentLine) : Prop where
  name : IsToken line.name.toList
  parameters : ∀ p ∈ line.parameters, p.Writable
  value : ∀ c ∈ line.value.toList, isBreak c = false

/-! ### Runs of characters -/

/-- A run of characters of a kind ends before the first one that is not. -/
theorem span_append {p : Char → Bool} {run after : List Char} (hrun : ∀ c ∈ run, p c = true)
    (hafter : ∀ c ∈ after.head?, p c = false) : span p (run ++ after) = (run, after) := by
  have hstop : after.takeWhile p = [] ∧ after.dropWhile p = after := by
    cases after with
    | nil => exact ⟨rfl, rfl⟩
    | cons c rest =>
      have hc : ¬ p c = true := by simp [hafter c rfl]
      exact ⟨List.takeWhile_cons_of_neg hc, List.dropWhile_cons_of_neg hc⟩
  rw [span, List.takeWhile_append_of_pos hrun, List.dropWhile_append_of_pos hrun, hstop.1, hstop.2,
    List.append_nil]

theorem isSafe_iff {c : Char} : isSafe c = true ↔
    c ≠ ';' ∧ c ≠ ':' ∧ c ≠ ',' ∧ c ≠ '"' ∧ isBreak c = false := by
  simp only [isSafe, Bool.not_eq_true', Bool.or_eq_false_iff, beq_eq_false_iff_ne, and_assoc]

theorem isBreak_of_isNameChar {c : Char} (h : isNameChar c = true) : isBreak c = false := by
  by_contra hbreak
  simp only [isBreak, Bool.not_eq_false, Bool.or_eq_true, beq_iff_eq] at hbreak
  rcases hbreak with rfl | rfl <;> exact absurd h (by decide)

/-! ### Parameters as they may be spelled -/

/-- Whether a text is a value of a parameter: any text without quotes between them, or
one without separators. -/
inductive SpellsValue : List Char → String → Prop
  | bare {value : List Char} (safe : ∀ c ∈ value, isSafe c = true) :
      SpellsValue value (String.ofList value)
  | quoted {value : List Char} (quote : '"' ∉ value) :
      SpellsValue ('"' :: (value ++ ['"'])) (String.ofList value)

theorem spellsValue_iff {text : List Char} {value : String} : SpellsValue text value ↔
    (text = value.toList ∧ ∀ c ∈ text, isSafe c = true) ∨
      (text = '"' :: (value.toList ++ ['"']) ∧ '"' ∉ value.toList) := by
  constructor
  · intro h
    cases h with
    | bare safe => exact Or.inl ⟨String.toList_ofList.symm, safe⟩
    | quoted quote =>
      rw [String.toList_ofList]
      exact Or.inr ⟨rfl, quote⟩
  · rintro (⟨rfl, hsafe⟩ | ⟨rfl, hquote⟩)
    · have hbare := SpellsValue.bare hsafe
      rwa [String.ofList_toList] at hbare
    · have hquoted := SpellsValue.quoted hquote
      rwa [String.ofList_toList] at hquoted

/-- No value holds a quote. -/
theorem SpellsValue.quote {text : List Char} {value : String} (h : SpellsValue text value) :
    '"' ∉ value.toList := by
  rcases spellsValue_iff.1 h with ⟨rfl, hsafe⟩ | ⟨-, hquote⟩
  · exact fun hmem => absurd (hsafe _ hmem) (by decide)
  · exact hquote

/-- Whether a text is a parameter: its name, an equals sign, and its values separated by
commas. -/
structure SpellsParameter (text : List Char) (p : RawParameter) : Prop where
  name : IsToken p.name.toList
  values : ∃ texts, text = p.name.toList ++ '=' :: join ',' texts ∧ texts ≠ [] ∧
    List.Forall₂ SpellsValue texts p.values

/-- Whether a text consists of parameters, each behind a semicolon. -/
inductive SpellsParameters : List Char → List RawParameter → Prop
  | nil : SpellsParameters [] []
  | cons {text rest : List Char} {p : RawParameter} {ps : List RawParameter}
      (first : SpellsParameter text p) (others : SpellsParameters rest ps) :
      SpellsParameters (';' :: (text ++ rest)) (p :: ps)

/-- Whether a text is a line: its name, its parameters, and its value behind a colon. -/
structure SpellsLine (text : List Char) (line : ContentLine) : Prop where
  name : IsToken line.name.toList
  parameters : ∃ parameters, SpellsParameters parameters line.parameters ∧
    text = line.name.toList ++ (parameters ++ ':' :: line.value.toList)
  value : ∀ c ∈ line.value.toList, isBreak c = false

/-! ### Reading what is spelled -/

/-- The characters that end a value: another value, a parameter or the value of the line
begins. -/
def EndsValue (c : Char) : Prop :=
  c = ',' ∨ c = ';' ∨ c = ':'

theorem EndsValue.not_isSafe {c : Char} (h : EndsValue c) : isSafe c = false := by
  rcases h with rfl | rfl | rfl <;> rfl

/-- A value is read up to the separator behind it, be it quoted or not. -/
theorem readValue_append {text after : List Char} {value : String} (h : SpellsValue text value)
    (hafter : ∀ c ∈ after.head?, EndsValue c) :
    readValue (text ++ after) = (value.toList, after) := by
  cases h with
  | @quoted value hquote =>
    have hspan : span (· != '"') (value ++ '"' :: after) = (value, '"' :: after) := by
      rw [span, takeWhile_bne_append hquote, dropWhile_bne_append hquote]
    simp only [List.cons_append, List.append_assoc, List.nil_append, readValue, hspan,
      String.toList_ofList]
  | bare hsafe =>
    have hunsafe : ∀ c ∈ after.head?, isSafe c = false := fun c hc => (hafter c hc).not_isSafe
    rw [String.toList_ofList, ← span_append hsafe hunsafe]
    unfold readValue
    split
    · rename_i rest heq
      -- neither a safe character nor one that ends a value is a quote
      cases text with
      | nil =>
        exact absurd (hafter '"' (by rw [← List.nil_append after, heq]; rfl)) (by simp [EndsValue])
      | cons c text =>
        obtain rfl := (List.cons.inj heq).1
        exact absurd (hsafe '"' List.mem_cons_self) (by decide)
    · rfl

theorem readValues_comma {text value rest : List Char} (h : readValue text = (value, ',' :: rest)) :
    readValues text = (String.ofList value :: (readValues rest).1, (readValues rest).2) := by
  conv => lhs; unfold readValues
  split
  · rename_i heq
    obtain ⟨rfl, hrest⟩ := Prod.mk.inj (h.symm.trans heq)
    obtain rfl := (List.cons.inj hrest).2
    rfl
  · rename_i hno heq
    obtain ⟨rfl, rfl⟩ := Prod.mk.inj (h.symm.trans heq)
    exact absurd rfl (hno _)

theorem readValues_last {text value after : List Char} (h : readValue text = (value, after))
    (hafter : ∀ rest, after ≠ ',' :: rest) : readValues text = ([String.ofList value], after) := by
  conv => lhs; unfold readValues
  split
  · rename_i heq
    exact absurd (Prod.mk.inj (h.symm.trans heq)).2 (hafter _)
  · rename_i heq
    obtain ⟨rfl, rfl⟩ := Prod.mk.inj (h.symm.trans heq)
    rfl

/-- Values are read up to what ends them. -/
theorem readValues_append {texts : List (List Char)} {values : List String} {after : List Char}
    (h : List.Forall₂ SpellsValue texts values) (hne : texts ≠ [])
    (hafter : ∃ c rest, after = c :: rest ∧ (c = ';' ∨ c = ':')) :
    readValues (join ',' texts ++ after) = (values, after) := by
  induction h with
  | nil => exact absurd rfl hne
  | @cons text value texts values hvalue hvalues ih =>
    cases hvalues with
    | nil =>
      obtain ⟨c, rest, rfl, hc⟩ := hafter
      have hread := readValue_append hvalue fun d (hd : d ∈ (c :: rest).head?) =>
        Option.some.inj hd ▸ Or.inr hc
      rw [join, readValues_last hread, String.ofList_toList]
      rintro rest' heq
      obtain rfl := (List.cons.inj heq).1
      exact absurd hc (by decide)
    | @cons second _ texts _ _ _ =>
      have hread := @readValue_append _ (',' :: (join ',' (second :: texts) ++ after)) _ hvalue
        fun d hd => Option.some.inj hd ▸ Or.inl rfl
      rw [join, List.append_assoc, List.cons_append, readValues_comma hread,
        ih (List.cons_ne_nil _ _), String.ofList_toList]

/-- A parameter is read up to what ends it. -/
theorem readParameter_append {text after : List Char} {p : RawParameter}
    (h : SpellsParameter text p) (hafter : ∃ c rest, after = c :: rest ∧ (c = ';' ∨ c = ':')) :
    readParameter (text ++ after) = some (p, after) := by
  obtain ⟨texts, rfl, hne, hvalues⟩ := h.values
  have hspan : span isNameChar (p.name.toList ++ '=' :: (join ',' texts ++ after)) =
      (p.name.toList, _) :=
    span_append h.name.chars fun c hc => Option.some.inj hc ▸ rfl
  obtain ⟨c, name, hname⟩ := List.exists_cons_of_ne_nil h.name.ne_nil
  have hofList : String.ofList (c :: name) = p.name := by rw [← hname, String.ofList_toList]
  rw [List.append_assoc, List.cons_append, readParameter, hspan, hname]
  simp only [readValues_append hvalues hne hafter, hofList]

/-- Parameters, and the value of the line behind them, begin with a separator. -/
theorem SpellsParameters.ends {text : List Char} {ps : List RawParameter}
    (h : SpellsParameters text ps) (value : List Char) :
    ∃ c rest, text ++ ':' :: value = c :: rest ∧ (c = ';' ∨ c = ':') := by
  cases h with
  | nil => exact ⟨':', value, rfl, Or.inr rfl⟩
  | cons => exact ⟨';', _, rfl, Or.inl rfl⟩

/-- **Parameters are read up to the value of the line.** -/
theorem readParameters_append {text : List Char} {ps : List RawParameter}
    (h : SpellsParameters text ps) (value : List Char) :
    readParameters (text ++ ':' :: value) = (ps, ':' :: value) := by
  induction h with
  | nil =>
    unfold readParameters
    rfl
  | @cons text rest p ps hp hps ih =>
    have hread := readParameter_append hp (hps.ends value)
    rw [List.cons_append, List.append_assoc]
    unfold readParameters
    simp only
    split
    · rename_i heq
      obtain ⟨rfl, rfl⟩ := Prod.mk.inj (Option.some.inj (hread.symm.trans heq))
      rw [ih]
    · rename_i heq
      exact absurd (hread.symm.trans heq) (by simp)

/-- A line is read from what spells it. -/
theorem SpellsLine.readUnfolded {text : List Char} {line : ContentLine}
    (h : SpellsLine text line) : readUnfolded text = .ok line := by
  obtain ⟨parameters, hps, rfl⟩ := h.parameters
  have hspan : span isNameChar (line.name.toList ++ (parameters ++ ':' :: line.value.toList)) =
      (line.name.toList, parameters ++ ':' :: line.value.toList) := by
    obtain ⟨sep, after, heq, hsep⟩ := hps.ends line.value.toList
    refine span_append h.name.chars fun c hc => ?_
    rw [heq] at hc
    obtain rfl := Option.some.inj hc
    rcases hsep with rfl | rfl <;> rfl
  have hvalue : span (!isBreak ·) line.value.toList = (line.value.toList, []) := by
    have hall : ∀ c ∈ line.value.toList, (!isBreak c) = true := fun c hc => by simp [h.value c hc]
    have hspan := @span_append _ _ [] hall (by simp)
    rwa [List.append_nil] at hspan
  obtain ⟨c, letters, hname⟩ := List.exists_cons_of_ne_nil h.name.ne_nil
  rw [ContentLine.readUnfolded, hspan, hname]
  simp only [readParameters_append hps, hvalue]
  rw [← hname, String.ofList_toList, String.ofList_toList]

/-- **A line is read from its name, its parameters and its value.** -/
theorem read_append {name parameters value : List Char} {ps : List RawParameter}
    (hname : IsToken name) (hps : SpellsParameters parameters ps)
    (hbreaks : ∀ c ∈ parameters ++ value, isBreak c = false) :
    read (String.ofList (name ++ (parameters ++ ':' :: value))) =
      .ok ⟨String.ofList name, ps, String.ofList value⟩ := by
  rw [List.forall_mem_append] at hbreaks
  have hnewline : '\n' ∉ name ++ (parameters ++ ':' :: value) := by
    simp only [List.mem_append, List.mem_cons, not_or]
    exact ⟨hname.not_mem (by decide), fun hc => absurd (hbreaks.1 _ hc) (by decide), by decide,
      fun hc => absurd (hbreaks.2 _ hc) (by decide)⟩
  rw [read, inProduction_eq_ok, bare_eq_ok, String.toList_ofList, Folding.strip_eq_self hnewline]
  refine SpellsLine.readUnfolded ⟨?_, ⟨parameters, hps, ?_⟩, ?_⟩
  · rwa [String.toList_ofList]
  · rw [String.toList_ofList, String.toList_ofList]
  · rw [String.toList_ofList]
    exact hbreaks.2

/-! ### Reading what is written -/

theorem needsQuotes_eq_false_iff {value : List Char} :
    RawParameter.needsQuotes value = false ↔
      value ≠ [] ∧ ∀ c ∈ value, c ≠ ',' ∧ c ≠ ':' ∧ c ≠ ';' := by
  rw [RawParameter.needsQuotes, Bool.or_eq_false_iff, List.any_eq_false]
  simp [and_assoc]

/-- What is written of a value spells it exactly when the value holds no quote, and no
break unless it stands between quotes. -/
theorem spellsValue_chars_iff {value : String} :
    SpellsValue (RawParameter.valueChars value) value ↔ '"' ∉ value.toList ∧
      (RawParameter.needsQuotes value.toList = false → ∀ c ∈ value.toList, isBreak c = false) := by
  by_cases hneeds : RawParameter.needsQuotes value.toList = true
  · have hquoted : RawParameter.valueChars value = '"' :: (value.toList ++ ['"']) := if_pos hneeds
    rw [hquoted, hneeds]
    constructor
    · exact fun h => ⟨h.quote, fun h => absurd h (by simp)⟩
    · exact fun h => spellsValue_iff.2 (Or.inr ⟨rfl, h.1⟩)
  · have hbare : RawParameter.valueChars value = value.toList := if_neg hneeds
    rw [Bool.not_eq_true] at hneeds
    rw [hbare, hneeds]
    constructor
    · intro h
      refine ⟨h.quote, fun _ c hc => ?_⟩
      rcases spellsValue_iff.1 h with ⟨-, hsafe⟩ | ⟨hquotes, hquote⟩
      · exact (isSafe_iff.1 (hsafe c hc)).2.2.2.2
      · rw [hquotes] at hquote
        exact absurd List.mem_cons_self hquote
    · rintro ⟨hquote, hbreaks⟩
      refine spellsValue_iff.2 (Or.inl ⟨rfl, fun c hc => ?_⟩)
      obtain ⟨hcomma, hcolon, hsemicolon⟩ := (needsQuotes_eq_false_iff.1 hneeds).2 c hc
      exact isSafe_iff.2 ⟨hsemicolon, hcolon, hcomma, fun h => hquote (h ▸ hc), hbreaks rfl c hc⟩

/-- A parameter is spelled by what is written of it when its values are. -/
theorem spells_chars {p : RawParameter} (h : p.Unquoted)
    (hvalues : ∀ v ∈ p.values, SpellsValue (RawParameter.valueChars v) v) :
    SpellsParameter p.chars p := by
  refine ⟨h.name, p.values.map RawParameter.valueChars, rfl, by simpa using h.values, ?_⟩
  rw [List.forall₂_map_left_iff, List.forall₂_same]
  exact hvalues

/-- Parameters as they stand in a line, each behind a semicolon. -/
def parameterChars (ps : List RawParameter) : List Char :=
  ps.flatMap fun p => ';' :: p.chars

theorem parameterChars_cons (p : RawParameter) (ps : List RawParameter) :
    parameterChars (p :: ps) = ';' :: (p.chars ++ parameterChars ps) := by
  rw [parameterChars, List.flatMap_cons, List.cons_append, parameterChars]

theorem spells_parameterChars {ps : List RawParameter} (h : ∀ p ∈ ps, p.Unquoted)
    (hvalues : ∀ p ∈ ps, ∀ v ∈ p.values, SpellsValue (RawParameter.valueChars v) v) :
    SpellsParameters (parameterChars ps) ps := by
  induction ps with
  | nil => exact .nil
  | cons p ps ih =>
    rw [List.forall_mem_cons] at h hvalues
    exact .cons (spells_chars h.1 hvalues.1) (ih h.2 hvalues.2)

theorem chars_eq (line : ContentLine) : line.chars =
    line.name.toList ++ (parameterChars line.parameters ++ ':' :: line.value.toList) := by
  have hjoin : ∀ first : List Char, join ';' (first :: line.parameters.map RawParameter.chars) =
      first ++ parameterChars line.parameters := by
    induction line.parameters with
    | nil => exact fun first => (List.append_nil first).symm
    | cons p ps ih =>
      intro first
      rw [List.map_cons, join, ih]
      simp [parameterChars]
  rw [chars, hjoin, List.append_assoc]

/-- What is written of a line holds no break. -/
theorem Writable.not_isBreak {line : ContentLine} (h : line.Writable) {c : Char}
    (hc : c ∈ line.chars) : isBreak c = false := by
  have htoken : ∀ {text : List Char}, IsToken text → c ∈ text → isBreak c = false :=
    fun ht hc => isBreak_of_isNameChar (ht.chars c hc)
  rw [chars_eq, List.mem_append, List.mem_append, List.mem_cons] at hc
  rcases hc with hc | hc | rfl | hc
  · exact htoken h.name hc
  · obtain ⟨p, hp, hc⟩ := List.mem_flatMap.1 hc
    have hwritable := h.parameters p hp
    rw [List.mem_cons, RawParameter.chars, List.mem_append, List.mem_cons] at hc
    rcases hc with rfl | hc | rfl | hc
    · rfl
    · exact htoken hwritable.name hc
    · rfl
    · rcases mem_join hc with rfl | ⟨item, hitem, hc⟩
      · rfl
      · obtain ⟨v, hv, rfl⟩ := List.mem_map.1 hitem
        unfold RawParameter.valueChars at hc
        split at hc
        · simp only [List.mem_cons, List.mem_append, List.not_mem_nil, or_false] at hc
          rcases hc with (rfl | hc) | rfl
          · rfl
          · exact hwritable.breaks v hv c hc
          · rfl
        · exact hwritable.breaks v hv c hc
  · rfl
  · exact h.value c hc

/-- **A line is read from what is written of it.** -/
theorem read_text {line : ContentLine} (h : line.Writable) : read line.text = .ok line := by
  have hbreaks : ∀ c ∈ parameterChars line.parameters ++ line.value.toList, isBreak c = false := by
    intro c hc
    refine h.not_isBreak ?_
    rw [chars_eq]
    exact List.mem_append_right _ ((List.mem_append.1 hc).elim (List.mem_append_left _) fun hc =>
      List.mem_append_right _ (List.mem_cons_of_mem _ hc))
  have hspells : SpellsParameters (parameterChars line.parameters) line.parameters :=
    spells_parameterChars (fun p hp => (h.parameters p hp).toUnquoted) fun p hp v hv =>
      spellsValue_chars_iff.2
        ⟨(h.parameters p hp).quote v hv, fun _ => (h.parameters p hp).breaks v hv⟩
  have hread := read_append h.name hspells hbreaks
  rwa [← chars_eq, String.ofList_toList, String.ofList_toList] at hread

/-! ### What is read -/

theorem span_fst_append_snd (p : Char → Bool) (text : List Char) :
    (span p text).1 ++ (span p text).2 = text :=
  List.takeWhile_append_dropWhile

theorem mem_span {p : Char → Bool} {text : List Char} {c : Char} (h : c ∈ (span p text).1) :
    p c = true :=
  List.mem_takeWhile_imp h

/-- A value is read from what spells it. -/
theorem spells_readValue (text : List Char) : ∃ piece, text = piece ++ (readValue text).2 ∧
    SpellsValue piece (String.ofList (readValue text).1) := by
  unfold readValue
  split
  · rename_i rest
    split
    · rename_i value c after heq
      obtain ⟨rfl, hdrop⟩ := Prod.mk.inj heq
      obtain ⟨hrest, hquote⟩ := eq_of_dropWhile_bne hdrop
      refine ⟨'"' :: (rest.takeWhile (· != '"') ++ ['"']), ?_, .quoted hquote⟩
      rw [List.cons_append, List.append_assoc, List.singleton_append, ← hrest]
    · -- a quote that is never closed is left where it stands
      exact ⟨[], rfl, .bare (List.forall_mem_nil _)⟩
  · exact ⟨_, (span_fst_append_snd isSafe text).symm, .bare fun _ => mem_span⟩

/-- Values are read from what spells them. -/
theorem spells_readValues (text : List Char) : ∃ texts,
    text = join ',' texts ++ (readValues text).2 ∧ texts ≠ [] ∧
      List.Forall₂ SpellsValue texts (readValues text).1 := by
  fun_induction readValues text with
  | case1 text value rest hnext values after hrest ih =>
    obtain ⟨piece, htext, hvalue⟩ := spells_readValue text
    obtain ⟨texts, hrest', hne, hvalues⟩ := ih
    rw [hnext] at htext hvalue
    rw [hrest] at hrest' hvalues
    refine ⟨piece :: texts, ?_, List.cons_ne_nil _ _, .cons hvalue hvalues⟩
    obtain ⟨second, others, rfl⟩ := List.exists_cons_of_ne_nil hne
    rw [htext, join, List.append_assoc, List.cons_append, ← hrest']
  | case2 text value after _ hnext =>
    obtain ⟨piece, htext, hvalue⟩ := spells_readValue text
    rw [hnext] at htext hvalue
    exact ⟨[piece], htext, List.cons_ne_nil _ _, .cons hvalue .nil⟩

/-- A parameter is read from what spells it. -/
theorem spells_readParameter {text after : List Char} {p : RawParameter}
    (h : readParameter text = some (p, after)) :
    ∃ piece, text = piece ++ after ∧ SpellsParameter piece p := by
  unfold readParameter at h
  split at h
  · rename_i c name rest heq
    obtain ⟨rfl, rfl⟩ := Prod.mk.inj (Option.some.inj h)
    obtain ⟨texts, hrest, hne, hvalues⟩ := spells_readValues rest
    have htoken : IsToken (span isNameChar text).1 :=
      ⟨by rw [heq]; exact List.cons_ne_nil c name, fun _ => mem_span⟩
    have htext := span_fst_append_snd isNameChar text
    rw [heq] at htoken htext
    refine ⟨(c :: name) ++ '=' :: join ',' texts, ?_, ⟨?_, texts, ?_, hne, hvalues⟩⟩
    · calc text = (c :: name) ++ '=' :: rest := htext.symm
        _ = (c :: name) ++ '=' :: (join ',' texts ++ (readValues rest).2) := by rw [← hrest]
        _ = _ := (List.append_assoc (c :: name) ('=' :: join ',' texts) _).symm
    · rwa [String.toList_ofList]
    · rw [String.toList_ofList]
  · exact absurd h (by simp)

/-- Parameters are read from what spells them. -/
theorem spells_readParameters (text : List Char) : ∃ piece,
    text = piece ++ (readParameters text).2 ∧ SpellsParameters piece (readParameters text).1 := by
  fun_induction readParameters text with
  | case1 rest p after hnext ps remaining hrest ih =>
    obtain ⟨piece, rfl, hp⟩ := spells_readParameter hnext
    obtain ⟨others, hafter, hps⟩ := ih
    rw [hrest] at hafter hps
    exact ⟨';' :: (piece ++ others), by rw [hafter]; simp, .cons hp hps⟩
  | case2 => exact ⟨[], rfl, .nil⟩
  | case3 => exact ⟨[], rfl, .nil⟩

/-- A line is read from what spells it only. -/
theorem spells_readUnfolded {text : List Char} {line : ContentLine}
    (h : readUnfolded text = .ok line) : SpellsLine text line := by
  unfold ContentLine.readUnfolded at h
  simp only at h
  split at h
  · exact absurd h (by simp)
  · rename_i name rest hname heq
    split at h
    · rename_i parameters after hparameters
      split at h
      · rename_i value hvalue
        obtain rfl := Except.ok.inj h
        obtain ⟨piece, hrest, hps⟩ := spells_readParameters rest
        have htext := span_fst_append_snd isNameChar text
        have hafter := span_fst_append_snd (!isBreak ·) after
        have htoken : ∀ c ∈ (span isNameChar text).1, isNameChar c = true := fun _ => mem_span
        have hbreaks : ∀ c ∈ (span (!isBreak ·) after).1, (!isBreak c) = true := fun _ => mem_span
        rw [hvalue, List.append_nil] at hafter
        rw [hvalue] at hbreaks
        rw [heq] at htext htoken
        rw [hparameters] at hrest hps
        refine ⟨?_, ⟨piece, hps, ?_⟩, ?_⟩
        · rw [String.toList_ofList]
          exact ⟨hname, htoken⟩
        · rw [String.toList_ofList, String.toList_ofList, ← htext, hrest, ← hafter]
        · rw [String.toList_ofList]
          exact fun c hc => by simpa using hbreaks c hc
      · exact absurd h (by simp)
    · exact absurd h (by simp)
    · exact absurd h (by simp)

/-- **Which texts are lines.** A line is read from a text exactly when the text, without
its folds, spells the line. -/
theorem read_eq_ok_iff {text : String} {line : ContentLine} :
    read text = .ok line ↔ SpellsLine (Folding.strip text.toList) line := by
  rw [read, inProduction_eq_ok, bare_eq_ok]
  exact ⟨spells_readUnfolded, SpellsLine.readUnfolded⟩

theorem SpellsParameter.unquoted {text : List Char} {p : RawParameter}
    (h : SpellsParameter text p) : p.Unquoted := by
  obtain ⟨texts, -, hne, hvalues⟩ := h.values
  refine ⟨h.name, ?_, forall_mem_of_forall₂ hvalues.flip fun _ _ => SpellsValue.quote⟩
  rintro hnil
  rw [hnil, List.forall₂_nil_right_iff] at hvalues
  exact hne hvalues

theorem SpellsParameters.unquoted {text : List Char} {ps : List RawParameter}
    (h : SpellsParameters text ps) : ∀ p ∈ ps, p.Unquoted := by
  induction h with
  | nil => exact List.forall_mem_nil _
  | cons first _ ih => exact List.forall_mem_cons.2 ⟨first.unquoted, ih⟩

/-- **The parameters of a line that is read hold no quotes.** -/
theorem unquoted_of_read {text : String} {line : ContentLine} (h : read text = .ok line) :
    ∀ p ∈ line.parameters, p.Unquoted := by
  obtain ⟨parameters, hps, -⟩ := (read_eq_ok_iff.1 h).parameters
  exact hps.unquoted

end ContentLine

end Recurrence
