/-
# Parameters as they are written

Parameters are read from what is written of them when their names are in capitals
and no name occurs twice; those of a rule have to be extensions. All parameters that
are read are of this kind. Extensions with names in capitals can be written when no
value holds a quote or a line break.

Key definitions: `Parameter.Regular`, `Parameters.Regular`, `Parameters.Extensions`.
Key theorems: `Parameters.read_raw`, `Parameters.regular_of_read`.
-/
import Recurrence.Parameter
import Recurrence.Proofs.Text.Case
import Recurrence.Proofs.Text.ContentLines

namespace Recurrence

open ContentLine Reading Text

namespace Parameter

/-- Whether a parameter is a zone or a type of value, or an extension whose name is
in capitals. -/
def Regular : Parameter → Prop
  | extension name _ => isExtensionName name = true ∧ Text.upper name = name
  | _ => True

variable {p : Parameter}

theorem Regular.upper_name (h : p.Regular) : Text.upper p.raw.name = p.raw.name := by
  cases p with
  | zone => exact (by decide : Text.upper "TZID" = "TZID")
  | valueType => exact (by decide : Text.upper "VALUE" = "VALUE")
  | extension => exact h.2

theorem ne_of_isExtensionName {name : String} (h : isExtensionName name = true) :
    name ≠ "TZID" ∧ name ≠ "VALUE" := by
  constructor <;>
  · rintro rfl
    exact absurd h (by decide)

/-- **A parameter is read from what is written of it.** -/
theorem read_raw (h : p.Regular) : read p.raw = .ok p := by
  have hname := h.upper_name
  cases p with
  | zone name => simp [read, show Text.upper "TZID" = "TZID" by decide, raw]
  | valueType type => cases type <;> rfl
  | extension name values =>
    obtain ⟨htzid, hvalue⟩ := ne_of_isExtensionName h.1
    simp only [raw] at hname
    simp [read, raw, hname, htzid, hvalue, h.1]

/-- What a parameter that is read can be, by its name in capitals. -/
theorem cases_of_read {raw : RawParameter} (h : read raw = .ok p) :
    (Text.upper raw.name = "TZID" ∧ p = zone (raw.values.getLastD "")) ∨
      (Text.upper raw.name = "VALUE" ∧ ∃ type, p = valueType type) ∨
      isExtensionName (Text.upper raw.name) = true ∧
        p = extension (Text.upper raw.name) raw.values := by
  unfold read at h
  simp only at h
  split at h
  · rename_i hname
    exact Or.inl ⟨eq_of_beq hname, (Except.ok.inj h).symm⟩
  · split at h
    · rename_i hname
      obtain ⟨type, -, rfl⟩ := map_eq_ok.1 h
      exact Or.inr (Or.inl ⟨eq_of_beq hname, type, rfl⟩)
    · split at h
      · rename_i hname
        exact Or.inr (Or.inr ⟨hname, (Except.ok.inj h).symm⟩)
      · exact absurd h (by simp)

/-- What is read of a parameter is regular, and has the name in capitals. -/
theorem regular_of_read {raw : RawParameter} (h : read raw = .ok p) :
    p.Regular ∧ p.raw.name = Text.upper raw.name := by
  rcases cases_of_read h with ⟨hname, rfl⟩ | ⟨hname, type, rfl⟩ | ⟨hname, rfl⟩
  · exact ⟨trivial, hname.symm⟩
  · exact ⟨trivial, hname.symm⟩
  · exact ⟨⟨hname, Text.upper_upper _⟩, rfl⟩

/-- What is read of a parameter holds no quotes when the parameter holds none. -/
theorem unquoted_of_read {raw : RawParameter} (h : read raw = .ok p) (hraw : raw.Unquoted) :
    p.raw.Unquoted := by
  rcases cases_of_read h with ⟨-, rfl⟩ | ⟨-, type, rfl⟩ | ⟨-, rfl⟩
  · refine ⟨(show IsToken "TZID".toList by decide), List.cons_ne_nil _ _,
      List.forall_mem_singleton.2 fun hquote => ?_⟩
    have hlast : raw.values.getLastD "" ∈ "" :: raw.values := List.getLastD_mem_cons
    rcases List.mem_cons.1 hlast with hlast | hlast
    · rw [hlast] at hquote
      exact absurd hquote (by decide)
    · exact hraw.quote _ hlast hquote
  · cases type <;> exact ⟨by decide, by decide, by decide⟩
  · refine ⟨?_, hraw.values, hraw.quote⟩
    rw [Parameter.raw, Text.upper, String.toList_ofList]
    exact hraw.name.upper

end Parameter

namespace Parameters

/-- Whether all parameters are regular and no two have the same name. -/
structure Regular (ps : Parameters) : Prop where
  items : ∀ p ∈ ps.items, p.Regular
  names : (ps.items.map fun p => p.raw.name).Nodup

variable {schema : ParameterSchema} {ps : Parameters}

theorem readOne_eq_ok {raw : RawParameter} {p : Parameter} (h : Parameter.read raw = .ok p)
    (hschema : schema = .rule → p.isExtension = true) : readOne schema raw = .ok p := by
  rw [readOne, bind_eq_ok]
  refine ⟨p, inProduction_eq_ok.2 (bare_eq_ok.2 h), ?_⟩
  rw [ite_throw_eq_ok]
  exact ⟨fun hno => hno.2 (hschema hno.1), rfl⟩

/-- Parameters of distinct names are read one after the other. -/
theorem readAfter_eq_ok {raws : List RawParameter} {items : List Parameter}
    (h : List.Forall₂ (fun raw p => Parameter.read raw = .ok p) raws items)
    (hnames : (items.map fun p => p.raw.name).Nodup)
    (hschema : schema = .rule → ∀ p ∈ items, p.isExtension = true) {seen : List String}
    (hseen : ∀ p ∈ items, p.raw.name ∉ seen) : readAfter schema seen raws = .ok items := by
  induction h generalizing seen with
  | nil => rfl
  | @cons raw p raws items hread hreads ih =>
    rw [List.forall_mem_cons] at hseen
    rw [List.map_cons, List.nodup_cons] at hnames
    have hname := (Parameter.regular_of_read hread).2
    rw [readAfter, ite_throw_eq_ok, ← hname]
    refine ⟨hseen.1, bind_eq_ok.2 ⟨p, readOne_eq_ok hread fun hr => hschema hr p List.mem_cons_self,
      bind_eq_ok.2 ⟨items, ?_, rfl⟩⟩⟩
    refine ih hnames.2 (fun hr q hq => hschema hr q (List.mem_cons_of_mem _ hq)) fun q hq => ?_
    rw [List.mem_cons, not_or]
    exact ⟨fun heq => hnames.1 (List.mem_map.2 ⟨q, hq, heq⟩), hseen.2 q hq⟩

/-- **Parameters of distinct names are read.** -/
theorem read_eq_ok {raws : List RawParameter}
    (h : List.Forall₂ (fun raw p => Parameter.read raw = .ok p) raws ps.items)
    (hnames : (ps.items.map fun p => p.raw.name).Nodup)
    (hschema : schema = .rule → ∀ p ∈ ps.items, p.isExtension = true) :
    read schema raws = .ok ps := by
  rw [read, map_eq_ok]
  exact ⟨ps.items, readAfter_eq_ok h hnames hschema fun _ _ => List.not_mem_nil, rfl⟩

/-- **Parameters are read from what is written of them.** -/
theorem read_raw (h : ps.Regular)
    (hschema : schema = .rule → ∀ p ∈ ps.items, p.isExtension = true) :
    read schema ps.raw = .ok ps := by
  refine read_eq_ok ?_ h.names hschema
  rw [raw, List.forall₂_map_left_iff, List.forall₂_same]
  exact fun p hp => Parameter.read_raw (h.items p hp)

theorem of_readAfter {seen : List String} {raws : List RawParameter} {items : List Parameter}
    (h : readAfter schema seen raws = .ok items) :
    List.Forall₂ (fun raw p => Parameter.read raw = .ok p) raws items ∧
      (items.map fun p => p.raw.name).Nodup ∧ ∀ p ∈ items, p.raw.name ∉ seen := by
  induction raws generalizing seen items with
  | nil =>
    obtain rfl := Except.ok.inj h
    exact ⟨List.Forall₂.nil, List.nodup_nil, by simp⟩
  | cons raw raws ih =>
    simp only [readAfter, ite_throw_eq_ok, bind_eq_ok, pure_eq_ok, readOne, inProduction_eq_ok,
      bare_eq_ok] at h
    obtain ⟨hseen, p, ⟨p', hread, -, rfl⟩, rest, hrest, rfl⟩ := h
    obtain ⟨hall, hnodup, hfresh⟩ := ih hrest
    have hname := (Parameter.regular_of_read hread).2
    simp only [List.mem_cons, not_or] at hfresh
    refine ⟨List.Forall₂.cons hread hall, ?_, ?_⟩
    · rw [List.map_cons, List.nodup_cons]
      refine ⟨fun hmem => ?_, hnodup⟩
      obtain ⟨q, hq, heq⟩ := List.mem_map.1 hmem
      exact (hfresh q hq).1 (heq.trans hname)
    · rw [List.forall_mem_cons, hname]
      exact ⟨hseen, fun q hq => (hfresh q hq).2⟩

theorem mem_of_read {raws : List RawParameter} (h : read schema raws = .ok ps) {p : Parameter}
    (hp : p ∈ ps.items) : ∃ raw ∈ raws, Parameter.read raw = .ok p := by
  obtain ⟨items, hitems, rfl⟩ := map_eq_ok.1 h
  exact (mem_of_mapM (mapM_eq_ok.2 (of_readAfter hitems).1) p).1 hp

/-- **Parameters that are read are regular.** -/
theorem regular_of_read {raws : List RawParameter} (h : read schema raws = .ok ps) :
    ps.Regular := by
  have hnames : (ps.items.map fun p => p.raw.name).Nodup := by
    obtain ⟨items, hitems, rfl⟩ := map_eq_ok.1 h
    exact (of_readAfter hitems).2.1
  refine ⟨fun p hp => ?_, hnames⟩
  obtain ⟨raw, -, hread⟩ := mem_of_read h hp
  exact (Parameter.regular_of_read hread).1

/-- Parameters that are read from some without quotes have none. -/
theorem unquoted_of_read {raws : List RawParameter} (h : read schema raws = .ok ps)
    (hraws : ∀ raw ∈ raws, raw.Unquoted) : ∀ raw ∈ ps.raw, raw.Unquoted := by
  refine List.forall_mem_map.2 fun p hp => ?_
  obtain ⟨raw, hraw, hread⟩ := mem_of_read h hp
  exact Parameter.unquoted_of_read hread (hraws raw hraw)

end Parameters

/-! ### Extension parameters -/

/-- Whether the parameters are extensions that can be written: names in capitals that
begin with `X-`, no two of them the same, and values without quotes and line breaks. -/
structure Parameters.Extensions (ps : Parameters) : Prop where
  items : ∀ p ∈ ps.items, ∃ rest values,
    p = .extension (String.ofList ("X-".toList ++ rest)) values ∧
      (∀ c ∈ rest, c.isUpper = true ∨ c.isDigit = true ∨ c = '-') ∧ values ≠ [] ∧
      ∀ v ∈ values, '"' ∉ v.toList ∧ ∀ c ∈ v.toList, isBreak c = false
  names : (ps.items.map fun p => p.raw.name).Nodup

namespace Parameters.Extensions

variable {ps : Parameters}

theorem isExtension (h : ps.Extensions) : ∀ p ∈ ps.items, p.isExtension = true := by
  intro p hp
  obtain ⟨rest, values, rfl, -⟩ := h.items p hp
  rfl

theorem upper_name {rest : List Char}
    (h : ∀ c ∈ rest, c.isUpper = true ∨ c.isDigit = true ∨ c = '-') :
    IsToken ("X-".toList ++ rest) ∧ upperChars ("X-".toList ++ rest) = "X-".toList ++ rest := by
  have hchars : ∀ c ∈ "X-".toList ++ rest,
      c.isUpper = true ∨ c.isDigit = true ∨ c = '-' := by
    rw [List.forall_mem_append]
    exact ⟨by decide, h⟩
  refine ⟨⟨List.cons_ne_nil _ _, fun c hc => ?_⟩,
    (List.map_congr_left fun c hc => ?_).trans (List.map_id _)⟩
  · rcases hchars c hc with hc | hc | rfl
    · exact isNameChar_iff.2 (Or.inr (Or.inl (isUpper_iff.1 hc)))
    · exact isNameChar_iff.2 (Or.inl (isDigit_iff.1 hc))
    · rfl
  · exact toUpper_eq_self (hchars c hc)

theorem regular (h : ps.Extensions) : ps.Regular := by
  refine ⟨fun p hp => ?_, h.names⟩
  obtain ⟨rest, values, rfl, hrest, -⟩ := h.items p hp
  refine ⟨?_, ?_⟩
  · rw [Parameter.isExtensionName, List.isPrefixOf_iff_prefix]
    simp only [String.toList_ofList]
    exact List.prefix_append _ _
  · rw [Text.upper, String.toList_ofList, (upper_name hrest).2]

theorem writable (h : ps.Extensions) : ∀ raw ∈ ps.raw, raw.Writable := by
  refine List.forall_mem_map.2 fun p hp => ?_
  obtain ⟨rest, values, rfl, hrest, hne, hvalues⟩ := h.items p hp
  have hname : IsToken (String.ofList ("X-".toList ++ rest)).toList := by
    rw [String.toList_ofList]
    exact (upper_name hrest).1
  exact ⟨⟨hname, hne, fun v hv => (hvalues v hv).1⟩, fun v hv => (hvalues v hv).2⟩

end Parameters.Extensions

end Recurrence
