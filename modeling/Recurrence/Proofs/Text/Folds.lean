/-
# Folds are undone

A text may be folded at any place, any number of times in a row, and its lines may stand
behind one another with any breaks and any number of empty lines between them. The lines
of such a text are those it was made of: every fold is found where it was put, no break
is taken for one, and what is taken off leaves no other behind. Lines are not folded, so
there is nothing to take off again.

Key definitions: `Folding.Folded`, `Folding.Layout`, `Folding.IsLine`.
Key theorems: `Folding.strip_folded`, `Folding.stripText_of_mem_unfold`,
`Folding.unfold_layout`.
-/
import Mathlib.Data.List.Chain
import Recurrence.Proofs.Text.Lines

namespace Recurrence

open Text

namespace Folding

/-! ### How texts are folded -/

/-- The breaks between lines. -/
inductive LineBreak : List Char → Prop
  | lf : LineBreak ['\n']
  | crlf : LineBreak ['\r', '\n']

/-- Whether a text is a line with folds in it, before, between and behind its
characters. -/
inductive Folded : List Char → List Char → Prop
  | nil : Folded [] []
  | char {line text : List Char} (c : Char) (rest : Folded line text) :
      Folded (c :: line) (c :: text)
  | fold {line text brk : List Char} {c : Char} (brk_break : LineBreak brk)
      (continues : isContinuation c = true) (rest : Folded line text) :
      Folded line (brk ++ c :: text)

/-- Whether a text is made of lines, folded, each but the last ended by a break, with empty
lines before, between and behind them. -/
inductive Layout : List (List Char) → List Char → Prop
  | nil : Layout [] []
  | last {line text : List Char} (folded : Folded line text) : Layout [line] text
  | empty {lines : List (List Char)} {brk text : List Char} (brk_break : LineBreak brk)
      (rest : Layout lines text) : Layout lines (brk ++ text)
  | line {lines : List (List Char)} {line text brk after : List Char}
      (folded : Folded line text) (brk_break : LineBreak brk) (rest : Layout lines after) :
      Layout (line :: lines) (text ++ (brk ++ after))

/-- Whether a text can be a line: it is not empty, holds no break, and neither begins nor
ends with a blank. -/
structure IsLine (line : List Char) : Prop where
  ne_nil : line ≠ []
  lf : '\n' ∉ line
  cr : '\r' ∉ line
  head : ∀ c ∈ line.head?, isBlank c = false
  last : ∀ c ∈ line.getLast?, isBlank c = false

variable {line text brk after : List Char} {ls : List (List Char)} {c : Char}

/-! ### Breaks and folds -/

theorem LineBreak.not_continues (h : LineBreak brk) (text : List Char) :
    ¬ Continues (brk ++ text) := by
  cases h <;> simp [Continues, isContinuation]

/-- A character that is in no break begins no fold. -/
theorem not_folds_cons (hlf : c ≠ '\n') (hcr : c ≠ '\r') (text : List Char) :
    ¬ Folds (c :: text) := by
  rintro ⟨piece, -, heq | heq⟩
  · exact hlf (List.cons.inj heq).1
  · exact hcr (List.cons.inj heq).1

/-- A fold is taken off. -/
theorem strip_fold (h : LineBreak brk) (hc : isContinuation c = true) (text : List Char) :
    strip (brk ++ c :: text) = strip text := by
  cases h with
  | lf => rw [List.cons_append, List.nil_append, strip, if_pos hc]
  | crlf => rw [List.cons_append, List.cons_append, List.nil_append, strip, if_pos hc]

/-- A break before what continues no line is kept. -/
theorem strip_break (h : LineBreak brk) (htext : ¬ Continues text) :
    strip (brk ++ text) = brk ++ strip text := by
  have hlf : strip ('\n' :: text) = '\n' :: strip text := by
    apply strip_cons
    rintro ⟨piece, hpiece, heq | heq⟩
    · exact htext ((List.cons.inj heq).2 ▸ hpiece)
    · exact absurd (List.cons.inj heq).1 (by decide)
  cases h with
  | lf => exact hlf
  | crlf =>
    rw [List.cons_append, List.cons_append, List.nil_append, strip_cons, hlf]
    · rfl
    · rintro ⟨piece, hpiece, heq | heq⟩
      · exact absurd (List.cons.inj heq).1 (by decide)
      · exact htext ((List.cons.inj (List.cons.inj heq).2).2 ▸ hpiece)

/-- **The folds of a line are taken off**, whatever follows it. -/
theorem strip_folded (h : Folded line text) (hlf : '\n' ∉ line) (hcr : '\r' ∉ line)
    (after : List Char) : strip (text ++ after) = line ++ strip after := by
  induction h with
  | nil => rfl
  | char c rest ih =>
    rw [List.mem_cons, not_or] at hlf hcr
    rw [List.cons_append, strip_cons (not_folds_cons (Ne.symm hlf.1) (Ne.symm hcr.1) _),
      ih hlf.2 hcr.2, List.cons_append]
  | fold hbreak hcontinues rest ih =>
    rw [List.append_assoc, List.cons_append, strip_fold hbreak hcontinues, ih hlf hcr]

/-- A line that is not folded. -/
theorem folded_self (line : List Char) : Folded line line := by
  induction line with
  | nil => exact .nil
  | cons c line ih => exact .char c ih

/-- A line may be folded piece by piece. -/
theorem Folded.append {line' text' : List Char} (h : Folded line text)
    (h' : Folded line' text') : Folded (line ++ line') (text ++ text') := by
  induction h with
  | nil => exact h'
  | char c rest ih => exact .char c ih
  | fold hbreak hcontinues rest ih =>
    rw [List.append_assoc, List.cons_append]
    exact .fold hbreak hcontinues ih

/-! ### Texts without folds -/

/-- Whether no break of a text stands before what continues a line. -/
def Unfolded (text : List Char) : Prop :=
  text.IsChain fun c d => c = '\n' → isContinuation d = false

instance decidableUnfolded (text : List Char) : Decidable (Unfolded text) :=
  inferInstanceAs (Decidable (text.IsChain _))

theorem unfolded_cons :
    Unfolded (c :: text) ↔ (c = '\n' → ¬ Continues text) ∧ Unfolded text := by
  rw [Unfolded, List.isChain_cons]
  apply and_congr_left'
  constructor
  · rintro h hc ⟨d, hd, hcontinues⟩
    exact absurd (h d hd hc) (by simp [hcontinues])
  · intro h d hd hc
    rw [← Bool.not_eq_true]
    exact fun hcontinues => h hc ⟨d, hd, hcontinues⟩

/-- Neither side of a separator continues the other. -/
theorem unfolded_append_cons (hlf : c ≠ '\n') (hc : isContinuation c = false)
    (text after : List Char) :
    Unfolded (text ++ c :: after) ↔ Unfolded text ∧ Unfolded after := by
  induction text with
  | nil =>
    rw [List.nil_append, unfolded_cons]
    exact ⟨fun h => ⟨.nil, h.2⟩, fun h => ⟨fun h => absurd h hlf, h.2⟩⟩
  | cons d text ih =>
    have hcontinues : Continues (text ++ c :: after) ↔ Continues text := by
      cases text with
      | nil => simp [Continues, hc]
      | cons e text => rw [List.cons_append, continues_cons, continues_cons]
    rw [List.cons_append, unfolded_cons, unfolded_cons, hcontinues, ih, and_assoc]

theorem Unfolded.not_folds (h : Unfolded text) : ¬ Folds text := by
  rintro ⟨piece, hpiece, rfl | rfl⟩
  · exact (unfolded_cons.1 h).1 rfl hpiece
  · exact (unfolded_cons.1 (unfolded_cons.1 h).2).1 rfl hpiece

/-- From a text without folds nothing is taken off. -/
theorem Unfolded.strip_eq_self (h : Unfolded text) : strip text = text := by
  induction text with
  | nil => rfl
  | cons c rest ih => rw [strip_cons h.not_folds, ih (unfolded_cons.1 h).2]

/-- A text that keeps all its line feeds has no folds. -/
theorem unfolded_of_count (h : (strip text).count '\n' = text.count '\n') : Unfolded text := by
  fun_induction strip text with
  | case1 c rest hc ih =>
    have hle := ((strip_sublist rest).cons c).count_le '\n'
    rw [List.count_cons_of_ne (by decide), List.count_cons_self] at h
    omega
  | case2 c rest hc ih =>
    rw [List.count_cons_of_ne (by decide), List.count_cons_of_ne (by decide)] at h
    exact unfolded_cons.2 ⟨fun hcr => absurd hcr (by decide), ih h⟩
  | case3 c rest hc ih =>
    have hle := ((strip_sublist rest).cons c).count_le '\n'
    rw [List.count_cons_self] at h
    omega
  | case4 c rest hc ih =>
    rw [List.count_cons_self, List.count_cons_self] at h
    exact unfolded_cons.2 ⟨fun _ hcontinues => hc (continues_cons.1 hcontinues),
      ih (Nat.add_right_cancel h)⟩
  | case5 c rest hcr hlf ih =>
    rw [List.count_cons, List.count_cons] at h
    refine unfolded_cons.2 ⟨?_, ih (Nat.add_right_cancel h)⟩
    rintro rfl ⟨d, hd, -⟩
    obtain ⟨after, rfl⟩ := List.head?_eq_some_iff.1 hd
    exact hlf d after rfl rfl
  | case6 => exact .nil

/-- A text without line feeds has no folds. -/
theorem unfolded_of_not_mem (h : '\n' ∉ text) : Unfolded text :=
  unfolded_of_count (by rw [strip_eq_self h])

/-! ### Layouts -/

/-- A line, folded or not, does not begin as a continuation does. -/
theorem Folded.not_continues (h : Folded line text) (hline : IsLine line) (after : List Char) :
    ¬ Continues (text ++ after) := by
  cases h with
  | nil => exact absurd rfl hline.ne_nil
  | char c rest =>
    rw [List.cons_append, continues_cons]
    intro hc
    have hblank : isBlank c = true := by
      simp only [isContinuation, Bool.or_eq_true, beq_iff_eq] at hc
      rcases hc with rfl | rfl <;> rfl
    exact absurd (hline.head c rfl) (by simp [hblank])
  | fold hbreak =>
    rw [List.append_assoc]
    exact hbreak.not_continues _

theorem Layout.not_continues (h : Layout ls text) (hls : ∀ line ∈ ls, IsLine line) :
    ¬ Continues text := by
  cases h with
  | nil => simp [Continues]
  | last hfolded =>
    rw [← List.append_nil text]
    exact hfolded.not_continues (hls _ List.mem_cons_self) []
  | empty hbreak => exact hbreak.not_continues _
  | line hfolded => exact hfolded.not_continues (hls _ List.mem_cons_self) _

/-- A break ends an empty line. -/
theorem lines_break (h : LineBreak brk) (text : List Char) :
    lines (brk ++ text) = [] :: lines text := by
  cases h with
  | lf => rw [List.cons_append, List.nil_append, lines]
  | crlf => rw [List.cons_append, List.cons_append, List.nil_append, lines]

/-- A break ends the line before it. -/
theorem lines_line (hlf : '\n' ∉ line) (hcr : '\r' ∉ line) (h : LineBreak brk)
    (text : List Char) : lines (line ++ (brk ++ text)) = line :: lines text := by
  induction line with
  | nil => exact lines_break h text
  | cons c line ih =>
    rw [List.mem_cons, not_or] at hlf hcr
    rw [List.cons_append, lines_cons (Ne.symm hlf.1) fun _ hc => absurd hc (Ne.symm hcr.1),
      ih hlf.2 hcr.2]
    rfl

/-- The lines of a layout without its folds, trimmed and without the empty ones. -/
theorem Layout.kept (h : Layout ls text) (hls : ∀ line ∈ ls, IsLine line) :
    ((lines (strip text)).map trimChars).filter (!·.isEmpty) = ls := by
  induction h with
  | nil => rfl
  | @last line text hfolded =>
    rw [List.forall_mem_singleton] at hls
    have hstrip := strip_folded hfolded hls.lf hls.cr []
    rw [List.append_nil, strip, List.append_nil] at hstrip
    rw [hstrip, lines_blanks hls.lf, List.map_singleton,
      trimChars_eq_self_of_ends hls.head hls.last, List.filter_cons_of_pos, List.filter_nil]
    simpa using hls.ne_nil
  | @empty ls brk text hbreak hrest ih =>
    -- a break is kept because what follows it begins a line or with another break
    rw [strip_break hbreak (hrest.not_continues hls), lines_break hbreak, List.map_cons]
    exact ih hls
  | @line ls line text brk after hfolded hbreak hrest ih =>
    rw [List.forall_mem_cons] at hls
    obtain ⟨hline, hls⟩ := hls
    rw [strip_folded hfolded hline.lf hline.cr, strip_break hbreak (hrest.not_continues hls),
      lines_line hline.lf hline.cr hbreak, List.map_cons,
      trimChars_eq_self_of_ends hline.head hline.last, List.filter_cons_of_pos, ih hls]
    simpa using hline.ne_nil

/-! ### Lines of a text -/

/-- The lines of a text are those that are not empty once they are trimmed. -/
theorem unfold_eq (text : String) : unfold text =
    (((lines (strip text.toList)).map trimChars).filter (!·.isEmpty)).map String.ofList := by
  rw [unfold, ← @List.filterMap_eq_map _ _ String.ofList, List.filterMap_filter]
  apply List.filterMap_congr
  intro line _
  cases line.isEmpty <;> rfl

theorem newline_not_mem_lines (text : List Char) : ∀ line ∈ lines text, '\n' ∉ line := by
  fun_induction lines text with
  | case1 rest ih => exact List.forall_mem_cons.2 ⟨List.not_mem_nil, ih⟩
  | case2 rest ih => exact List.forall_mem_cons.2 ⟨List.not_mem_nil, ih⟩
  | case3 c rest hcr hlf ih =>
    cases hlines : lines rest with
    | nil => exact absurd hlines (lines_ne_nil rest)
    | cons first others =>
      rw [hlines, List.forall_mem_cons] at ih
      refine List.forall_mem_cons.2 ⟨?_, ih.2⟩
      rw [List.mem_cons, not_or]
      exact ⟨fun h => hlf h.symm, ih.1⟩
  | case4 => exact List.forall_mem_singleton.2 List.not_mem_nil

/-- **The lines of a text hold no folds.** -/
theorem stripText_of_mem_unfold {text line : String} (h : line ∈ unfold text) :
    stripText line = line := by
  rw [unfold_eq, List.mem_map] at h
  obtain ⟨trimmed, hmem, rfl⟩ := h
  obtain ⟨whole, hwhole, rfl⟩ := List.mem_map.1 (List.mem_of_mem_filter hmem)
  have hlf : '\n' ∉ trimChars whole := fun hn =>
    newline_not_mem_lines _ whole hwhole (mem_of_mem_trimChars hn)
  rw [stripText, String.toList_ofList, strip_eq_self hlf]

/-- **Unfolding undoes folding.** The lines of a text that was made of lines by folding
them and by putting breaks behind them are these lines, and no fold is left in them. -/
theorem unfold_layout {lines : List String} {text : String}
    (hlines : ∀ line ∈ lines, IsLine line.toList)
    (h : Layout (lines.map String.toList) text.toList) :
    unfold text = lines ∧ ∀ line ∈ unfold text, stripText line = line := by
  refine ⟨?_, fun line hline => stripText_of_mem_unfold hline⟩
  rw [unfold_eq, h.kept (List.forall_mem_map.2 hlines), List.map_map]
  calc lines.map (String.ofList ∘ String.toList) = lines.map id :=
        List.map_congr_left fun line _ => String.ofList_toList
    _ = lines := List.map_id lines

/-- A fold before a blank, three folds in a row between two characters, folds at both ends
of a line, and breaks of both kinds with empty lines between them. -/
theorem unfold_layout_mixed :
    let lines := ["RDATE:2006 0418", "EXDATE:2006"]
    let text := "\r\n\n\tRDATE:2006\r\n  04\n \r\n\t\n 18\n \r\n\n\r\nEXDATE:2006\r\n"
    ((∀ line ∈ lines, IsLine line.toList) ∧ Layout (lines.map String.toList) text.toList) ∧
      unfold text = lines ∧ ∀ line ∈ unfold text, stripText line = line := by
  intro lines text
  have hlines : ∀ line ∈ lines, IsLine line.toList := by
    intro line hline
    rcases List.mem_pair.1 hline with rfl | rfl
    all_goals
      refine ⟨by decide, by decide, by decide, fun c hc => ?_, fun c hc => ?_⟩
      all_goals
        obtain rfl := Option.some.inj hc
        rfl
  have hfirst : Folded "RDATE:2006 0418".toList
      "\n\tRDATE:2006\r\n  04\n \r\n\t\n 18\n ".toList :=
    .fold .lf rfl ((folded_self "RDATE:2006".toList).append (.fold .crlf rfl
      ((folded_self " 04".toList).append (.fold .lf rfl (.fold .crlf rfl (.fold .lf rfl
        ((folded_self "18".toList).append (.fold .lf rfl .nil))))))))
  have htext : text.toList = ['\r', '\n'] ++
      ("\n\tRDATE:2006\r\n  04\n \r\n\t\n 18\n ".toList ++ (['\r', '\n'] ++ (['\n'] ++
        (['\r', '\n'] ++ ("EXDATE:2006".toList ++ (['\r', '\n'] ++ [])))))) := by
    decide
  have hlayout : Layout (lines.map String.toList) text.toList := by
    rw [htext]
    exact .empty .crlf (.line hfirst .crlf (.empty .lf (.empty .crlf
      (.line (folded_self "EXDATE:2006".toList) .crlf .nil))))
  exact ⟨⟨hlines, hlayout⟩, unfold_layout hlines hlayout⟩

end Folding

end Recurrence
