/-
# The lines of a text

A text is made of pieces, one behind the other with line breaks between them. As
long as no piece begins as the continuation of a folded line does, the lines of the
text are those of its pieces: a break ends a line, also when a carriage return
stands before it, and what is blank adds nothing. So texts that are made of the
same pieces, in any order and number and with any blank ones between them, have the
same lines.

Key definitions: `Folding.Folds`, `Folding.StandsAlone`, `Folding.SameLines`.
Key theorems: `Folding.unfold_join`, `Folding.SameLines.mem_unfold`.
-/
import Mathlib.Data.List.Forall2
import Mathlib.Data.List.Induction
import Recurrence.ContentLine.Fold
import Recurrence.Proofs.Text.Blanks
import Recurrence.Text.Split

namespace Recurrence

open Text

namespace Folding

/-! ### Breaks and folds -/

/-- Whether a piece of a text begins as the continuation of a line does. -/
def Continues (piece : List Char) : Prop :=
  ∃ c ∈ piece.head?, isContinuation c = true

/-- Whether a text begins with a fold. -/
def Folds (text : List Char) : Prop :=
  ∃ piece, Continues piece ∧ (text = '\n' :: piece ∨ text = '\r' :: '\n' :: piece)

theorem continues_cons {c : Char} {rest : List Char} :
    Continues (c :: rest) ↔ isContinuation c = true := by
  simp [Continues]

theorem continues_append {piece : List Char} (text : List Char) :
    Continues (text ++ '\n' :: piece) ↔ Continues text := by
  cases text with
  | nil => simp [Continues, isContinuation]
  | cons c rest => rw [List.cons_append, continues_cons, continues_cons]

/-- A text with a break behind it begins with a fold only if the text does, or
with that break. -/
theorem folds_append {text piece : List Char} (h : Folds (text ++ '\n' :: piece)) :
    Folds text ∨ Continues piece ∧ (text = [] ∨ text = ['\r']) := by
  obtain ⟨after, hafter, heq | heq⟩ := h
  · rcases text with _ | ⟨a, text⟩
    · obtain ⟨-, rfl⟩ := List.cons.inj heq
      exact Or.inr ⟨hafter, Or.inl rfl⟩
    · obtain ⟨rfl, rfl⟩ := List.cons.inj heq
      exact Or.inl ⟨text, (continues_append text).1 hafter, Or.inl rfl⟩
  · rcases text with _ | ⟨a, _ | ⟨b, text⟩⟩
    · exact absurd (List.cons.inj heq).1 (by decide)
    · obtain ⟨rfl, hrest⟩ := List.cons.inj heq
      obtain ⟨-, rfl⟩ := List.cons.inj hrest
      exact Or.inr ⟨hafter, Or.inr rfl⟩
    · obtain ⟨rfl, hrest⟩ := List.cons.inj heq
      obtain ⟨rfl, rfl⟩ := List.cons.inj hrest
      exact Or.inl ⟨text, (continues_append text).1 hafter, Or.inr rfl⟩

/-- What does not begin with a fold keeps its first character. -/
theorem strip_cons {c : Char} {rest : List Char} (h : ¬ Folds (c :: rest)) :
    strip (c :: rest) = c :: strip rest := by
  conv => lhs; unfold strip
  split
  · rename_i k after heq
    obtain ⟨rfl, rfl⟩ := List.cons.inj heq
    rw [if_neg fun hk => h ⟨_, continues_cons.2 hk, Or.inr rfl⟩]
  · rename_i k after heq
    obtain ⟨rfl, rfl⟩ := List.cons.inj heq
    rw [if_neg fun hk => h ⟨_, continues_cons.2 hk, Or.inl rfl⟩]
  · rename_i heq
    obtain ⟨rfl, rfl⟩ := List.cons.inj heq
    rfl
  · rename_i heq
    exact absurd heq (List.cons_ne_nil c rest)

/-- What is left of a text without its folds stands in it in the same order. -/
theorem strip_sublist (text : List Char) : (strip text).Sublist text := by
  fun_induction strip text with
  | case1 c rest hc ih => exact ((ih.cons c).cons '\n').cons '\r'
  | case2 c rest hc ih => exact ih.cons_cons '\r'
  | case3 c rest hc ih => exact (ih.cons c).cons '\n'
  | case4 c rest hc ih => exact ih.cons_cons '\n'
  | case5 c rest hcr hlf ih => exact ih.cons_cons c
  | case6 => exact .slnil

/-- A fold stands for nothing. -/
theorem Folds.skip {text : List Char} (h : Folds text) :
    ∃ rest, rest.length < text.length ∧ ∀ after, strip (text ++ after) = strip (rest ++ after) := by
  obtain ⟨_ | ⟨c, rest⟩, hpiece, rfl | rfl⟩ := h
  · exact absurd hpiece (by simp [Continues])
  · exact absurd hpiece (by simp [Continues])
  · refine ⟨rest, by simp only [List.length_cons]; omega, fun after => ?_⟩
    rw [List.cons_append, List.cons_append, strip, if_pos (continues_cons.1 hpiece)]
  · refine ⟨rest, by simp only [List.length_cons]; omega, fun after => ?_⟩
    rw [List.cons_append, List.cons_append, List.cons_append, strip,
      if_pos (continues_cons.1 hpiece)]

/-- A break that begins no fold is kept, and what stands on either side of it is
stripped by itself. -/
theorem strip_append {piece : List Char} (h : ¬ Continues piece) (text : List Char) :
    strip (text ++ '\n' :: piece) = strip text ++ '\n' :: strip piece := by
  induction hn : text.length using Nat.strong_induction_on generalizing text with
  | _ n ih =>
    by_cases hfolds : Folds text
    · obtain ⟨rest, hlength, hskip⟩ := hfolds.skip
      have htext := hskip []
      rw [List.append_nil, List.append_nil] at htext
      rw [hskip, htext]
      exact ih _ (hn ▸ hlength) rest rfl
    · have hfolds' : ¬ Folds (text ++ '\n' :: piece) := fun hf =>
        (folds_append hf).elim hfolds fun hp => h hp.1
      cases text with
      | nil =>
        rw [List.nil_append] at hfolds' ⊢
        rw [strip_cons hfolds', strip, List.nil_append]
      | cons c rest =>
        rw [List.cons_append] at hfolds' ⊢
        rw [strip_cons hfolds', strip_cons hfolds, List.cons_append,
          ih _ (by simp [← hn]) rest rfl]

/-- A text without breaks has no folds. -/
theorem strip_eq_self {text : List Char} (h : '\n' ∉ text) : strip text = text := by
  induction text with
  | nil => rfl
  | cons c rest ih =>
    rw [List.mem_cons, not_or] at h
    rw [strip_cons, ih h.2]
    rintro ⟨piece, -, heq | heq⟩
    · exact h.1 (List.cons.inj heq).1.symm
    · exact h.2 (by rw [(List.cons.inj heq).2]; exact List.mem_cons_self)

/-- A continuation that is blank leaves only blanks behind, and takes the
carriage return before its break along. -/
theorem strip_append_blank {c : Char} (hc : isContinuation c = true) {blanks : List Char}
    (hb : '\n' ∉ blanks) (text : List Char) : ∃ kept,
      strip (text ++ '\n' :: c :: blanks) = kept ++ blanks ∧
        (strip text = kept ∨ strip text = kept ++ ['\r']) := by
  induction hn : text.length using Nat.strong_induction_on generalizing text with
  | _ n ih =>
    by_cases hfolds : Folds text
    · obtain ⟨rest, hlength, hskip⟩ := hfolds.skip
      have htext := hskip []
      rw [List.append_nil, List.append_nil] at htext
      rw [hskip, htext]
      exact ih _ (hn ▸ hlength) rest rfl
    · cases text with
      | nil => exact ⟨[], by rw [List.nil_append, strip, if_pos hc, strip_eq_self hb]; rfl, Or.inl rfl⟩
      | cons a rest =>
        by_cases hcr : a = '\r' ∧ rest = []
        · obtain ⟨rfl, rfl⟩ := hcr
          refine ⟨[], ?_, Or.inr rfl⟩
          rw [List.cons_append, List.nil_append, strip, if_pos hc, strip_eq_self hb]
          rfl
        · obtain ⟨kept, hkept, hstrip⟩ := ih _ (by simp [← hn]) rest rfl
          refine ⟨a :: kept, ?_, ?_⟩
          · have hfolds' : ¬ Folds (a :: rest ++ '\n' :: c :: blanks) := fun hf =>
              (folds_append hf).elim hfolds fun hp => hp.2.elim (List.cons_ne_nil a rest) fun he =>
                hcr (List.cons.inj he)
            rw [List.cons_append] at hfolds' ⊢
            rw [strip_cons hfolds', hkept, List.cons_append]
          · rw [strip_cons hfolds]
            exact hstrip.imp (congrArg _) (congrArg _)

/-! ### Lines that are trimmed alike -/

/-- Whether two lines are the same once they are trimmed, whatever stands before
them. -/
def TrimAlike (line line' : List Char) : Prop :=
  ∀ before, trimChars (before ++ line) = trimChars (before ++ line')

theorem TrimAlike.cons {line line' : List Char} (h : TrimAlike line line') (c : Char) :
    TrimAlike (c :: line) (c :: line') := by
  intro before
  have hc := h (before ++ [c])
  rwa [List.append_assoc, List.append_assoc] at hc

theorem trimAlike_append {blanks : List Char} (h : ∀ c ∈ blanks, isBlank c = true)
    (line : List Char) : TrimAlike (line ++ blanks) line := by
  intro before
  rw [← List.append_assoc, trimChars_append h]

theorem lines_ne_nil (text : List Char) : lines text ≠ [] := by
  fun_induction lines text with
  | case1 => exact List.cons_ne_nil _ _
  | case2 => exact List.cons_ne_nil _ _
  | case3 c rest hcr hlf ih =>
    unfold consFirst
    split <;> exact List.cons_ne_nil _ _
  | case4 => exact List.cons_ne_nil _ _

theorem consFirst_append {ls : List (List Char)} (h : ls ≠ []) (c : Char)
    (others : List (List Char)) : consFirst c (ls ++ others) = consFirst c ls ++ others := by
  cases ls with
  | nil => exact absurd rfl h
  | cons first ls => rfl

theorem trimAlike_consFirst {ls ls' : List (List Char)} (h : List.Forall₂ TrimAlike ls ls')
    (c : Char) : List.Forall₂ TrimAlike (consFirst c ls) (consFirst c ls') := by
  cases h with
  | nil => exact List.Forall₂.cons (fun _ => rfl) List.Forall₂.nil
  | cons hfirst hothers => exact List.Forall₂.cons (hfirst.cons c) hothers

/-- What begins with no break keeps its first character in its first line. -/
theorem lines_cons {c : Char} {rest : List Char} (hlf : c ≠ '\n')
    (hcr : ∀ after, c = '\r' → rest ≠ '\n' :: after) :
    lines (c :: rest) = consFirst c (lines rest) := by
  conv => lhs; unfold lines
  split
  · rename_i heq
    obtain ⟨rfl, rfl⟩ := List.cons.inj heq
    exact absurd rfl (hcr _ rfl)
  · rename_i heq
    exact absurd (List.cons.inj heq).1 hlf
  · rename_i heq
    obtain ⟨rfl, rfl⟩ := List.cons.inj heq
    rfl
  · rename_i heq
    exact absurd heq (List.cons_ne_nil c rest)

/-- **A break ends a line**, be there a carriage return before it or not. -/
theorem lines_append (text piece : List Char) :
    List.Forall₂ TrimAlike (lines (text ++ '\n' :: piece)) (lines text ++ lines piece) := by
  have hsame : ∀ ls, List.Forall₂ TrimAlike ls ls := fun ls =>
    List.forall₂_same.2 fun _ _ _ => rfl
  fun_induction lines text with
  | case1 rest ih => exact List.Forall₂.cons (fun _ => rfl) ih
  | case2 rest ih => exact List.Forall₂.cons (fun _ => rfl) ih
  | case3 c rest hcr hlf ih =>
    by_cases hend : c = '\r' ∧ rest = []
    · obtain ⟨rfl, rfl⟩ := hend
      refine List.Forall₂.cons (fun before => ?_) (hsame _)
      exact (trimAlike_append (List.forall_mem_singleton.2 rfl) [] before).symm
    · have hbreak : ∀ after, c = '\r' → rest ++ '\n' :: piece ≠ '\n' :: after := by
        intro after hc heq
        rcases rest with _ | ⟨b, rest⟩
        · exact hend ⟨hc, rfl⟩
        · exact hcr rest hc (by rw [(List.cons.inj heq).1])
      rw [List.cons_append, lines_cons hlf hbreak, ← consFirst_append (lines_ne_nil rest)]
      exact trimAlike_consFirst ih c
  | case4 => exact hsame _

theorem lines_blanks {blanks : List Char} (hb : '\n' ∉ blanks) : lines blanks = [blanks] := by
  induction blanks with
  | nil => rfl
  | cons c rest ih =>
    rw [List.mem_cons, not_or] at hb
    rw [lines_cons (Ne.symm hb.1), ih hb.2]
    · rfl
    · rintro after - rfl
      exact hb.2 List.mem_cons_self

/-- Blanks behind a text change none of its lines. -/
theorem lines_append_blanks {blanks : List Char} (hblank : ∀ c ∈ blanks, isBlank c = true)
    (hb : '\n' ∉ blanks) (text : List Char) :
    List.Forall₂ TrimAlike (lines (text ++ blanks)) (lines text) := by
  fun_induction lines text with
  | case1 rest ih => exact List.Forall₂.cons (fun _ => rfl) ih
  | case2 rest ih => exact List.Forall₂.cons (fun _ => rfl) ih
  | case3 c rest hcr hlf ih =>
    have hbreak : ∀ after, c = '\r' → rest ++ blanks ≠ '\n' :: after := by
      intro after hc heq
      rcases rest with _ | ⟨b, rest⟩
      · exact hb (by rw [← List.nil_append blanks, heq]; exact List.mem_cons_self)
      · exact hcr rest hc (by rw [(List.cons.inj heq).1])
    rw [List.cons_append, lines_cons hlf hbreak]
    exact trimAlike_consFirst ih c
  | case4 =>
    rw [List.nil_append, lines_blanks hb]
    exact List.Forall₂.cons (trimAlike_append hblank []) List.Forall₂.nil

/-! ### Texts made of pieces -/

theorem map_trimChars_eq {ls ls' : List (List Char)} (h : List.Forall₂ TrimAlike ls ls') :
    ls.map trimChars = ls'.map trimChars := by
  induction h with
  | nil => rfl
  | cons hfirst _ ih => exact congrArg₂ List.cons (hfirst []) ih

theorem mem_of_mem_lines {text line : List Char} (h : line ∈ lines text) {c : Char} (hc : c ∈ line) :
    c ∈ text := by
  fun_induction lines text generalizing line with
  | case1 rest ih =>
    rcases List.mem_cons.1 h with rfl | h
    · exact absurd hc List.not_mem_nil
    · exact List.mem_cons_of_mem _ (List.mem_cons_of_mem _ (ih h hc))
  | case2 rest ih =>
    rcases List.mem_cons.1 h with rfl | h
    · exact absurd hc List.not_mem_nil
    · exact List.mem_cons_of_mem _ (ih h hc)
  | case3 a rest hcr hlf ih =>
    cases hlines : lines rest with
    | nil => exact absurd hlines (lines_ne_nil rest)
    | cons first others =>
      rw [hlines] at h ih
      rcases List.mem_cons.1 h with rfl | h
      · exact List.mem_cons.2 ((List.mem_cons.1 hc).imp_right (ih List.mem_cons_self))
      · exact List.mem_cons_of_mem _ (ih (List.mem_cons_of_mem _ h) hc)
  | case4 => exact absurd hc (by rw [List.mem_singleton.1 h]; exact List.not_mem_nil)

/-- Lines of blanks are not counted. -/
theorem unfold_blank {piece : List Char} (h : ∀ c ∈ piece, isBlank c = true) :
    unfold (String.ofList piece) = [] := by
  rw [unfold, String.toList_ofList, List.filterMap_eq_nil_iff, List.forall_mem_map]
  intro line hline
  have hblank : trimChars line = [] :=
    trimChars_eq_nil_iff.2 fun c hc => h c ((strip_sublist piece).subset (mem_of_mem_lines hline hc))
  rw [hblank]
  rfl

/-- A piece that does not begin as a continuation has its lines for itself. -/
theorem unfold_append {piece : List Char} (h : ¬ Continues piece) (text : List Char) :
    unfold (String.ofList (text ++ '\n' :: piece)) =
      unfold (String.ofList text) ++ unfold (String.ofList piece) := by
  simp only [unfold, String.toList_ofList]
  rw [strip_append h, map_trimChars_eq (lines_append _ _), List.map_append, List.filterMap_append]

/-- A blank continuation adds nothing to the line that it continues. -/
theorem unfold_append_blank {c : Char} (hc : isContinuation c = true) {blanks : List Char}
    (hblank : ∀ c ∈ blanks, isBlank c = true) (hb : '\n' ∉ blanks) (text : List Char) :
    unfold (String.ofList (text ++ '\n' :: c :: blanks)) = unfold (String.ofList text) := by
  obtain ⟨kept, hkept, hstrip⟩ := strip_append_blank hc hb text
  have htext : (lines (strip text)).map trimChars = (lines kept).map trimChars := by
    rcases hstrip with heq | heq
    · rw [heq]
    · rw [heq, map_trimChars_eq (lines_append_blanks (List.forall_mem_singleton.2 rfl) (by decide) kept)]
  simp only [unfold, String.toList_ofList]
  rw [hkept, map_trimChars_eq (lines_append_blanks hblank hb kept), htext]

/-- Whether a piece of a text can stand behind a line break by itself: it is blank or
does not begin as a continuation. -/
def StandsAlone (piece : List Char) : Prop :=
  ¬ Continues piece ∨ (∀ c ∈ piece, isBlank c = true) ∧ '\n' ∉ piece

theorem join_append_singleton {pieces : List (List Char)} (h : pieces ≠ []) (piece : List Char) :
    join '\n' (pieces ++ [piece]) = join '\n' pieces ++ '\n' :: piece := by
  induction pieces with
  | nil => exact absurd rfl h
  | cons first others ih =>
    cases others with
    | nil => rfl
    | cons second rest =>
      have hrest := ih (List.cons_ne_nil second rest)
      rw [List.cons_append] at hrest
      rw [List.cons_append, List.cons_append, join, hrest, join, List.append_assoc,
        List.cons_append]

/-- **The lines of a text are those of its pieces.** -/
theorem unfold_join {pieces : List (List Char)} (h : ∀ piece ∈ pieces.tail, StandsAlone piece) :
    unfold (String.ofList (join '\n' pieces)) =
      pieces.flatMap fun piece => unfold (String.ofList piece) := by
  induction pieces using List.reverseRecOn with
  | nil => rfl
  | append_singleton pieces piece ih =>
    by_cases hnil : pieces = []
    · rw [hnil, List.nil_append, List.flatMap_singleton]
      rfl
    · rw [List.tail_append_of_ne_nil hnil, List.forall_mem_append, List.forall_mem_singleton] at h
      rw [join_append_singleton hnil, List.flatMap_append, List.flatMap_singleton, ← ih h.1]
      rcases h.2 with hpiece | ⟨hblank, hb⟩
      · exact unfold_append hpiece _
      · by_cases hpiece : Continues piece
        · obtain ⟨c, hc, hcont⟩ := hpiece
          obtain ⟨blanks, rfl⟩ := List.head?_eq_some_iff.1 hc
          rw [unfold_blank hblank, List.append_nil]
          exact unfold_append_blank hcont (fun c hc => hblank c (List.mem_cons_of_mem _ hc))
            (fun hn => hb (List.mem_cons_of_mem _ hn)) _
        · exact unfold_append hpiece _

/-- Whether two texts are made of the same pieces, in any order and number, and of
blank ones. -/
def SameLines (text text' : String) : Prop :=
  ∃ pieces pieces', text = String.ofList (join '\n' pieces) ∧
    text' = String.ofList (join '\n' pieces') ∧
    (∀ piece ∈ pieces.tail ++ pieces'.tail, StandsAlone piece) ∧
    ∀ piece, trimChars piece ≠ [] → (piece ∈ pieces ↔ piece ∈ pieces')

/-- **Texts of the same pieces have the same lines.** -/
theorem SameLines.mem_unfold {text text' : String} (h : SameLines text text') (line : String) :
    line ∈ unfold text ↔ line ∈ unfold text' := by
  obtain ⟨pieces, pieces', rfl, rfl, hpieces, hmem⟩ := h
  rw [List.forall_mem_append] at hpieces
  rw [unfold_join hpieces.1, unfold_join hpieces.2, List.mem_flatMap, List.mem_flatMap]
  refine exists_congr fun piece => and_congr_left fun hline => hmem piece fun hblank => ?_
  rw [unfold_blank (trimChars_eq_nil_iff.1 hblank)] at hline
  exact absurd hline List.not_mem_nil

end Folding

end Recurrence
