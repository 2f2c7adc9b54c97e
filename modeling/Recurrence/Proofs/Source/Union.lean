/-
# A union follows the merge of its inclusions

Inclusions and exclusions that follow ascending lists make a union that follows
the ascending list of the moments that some inclusion has and no exclusion has
(`Union.follows`). What the union keeps from step to step is `Union.Merges`: its
inclusions stand at the heads of their lists, the exclusions may have been moved
up to any moment that came before, and only moments after the last one count.

Key definitions: `Union.Standing`, `Union.Merges`.
Key theorems: `Union.Merges.skip`, `Union.Merges.pass`, `Union.produceFrom_merges`,
`Union.follows`.
-/
import Recurrence.Proofs.Source.Queries
import Recurrence.Source.Dates
import Recurrence.Source.Union

namespace Recurrence

/-! ### Lists of dates -/

namespace DateSource

theorem dedup_spec {ms : List Moment} (h : ms.Pairwise (· ≤ ·)) :
    (dedup ms).Pairwise (· < ·) ∧ ∀ m, m ∈ dedup ms ↔ m ∈ ms := by
  fun_induction dedup ms with
  | case1 b rest ih =>
    obtain ⟨hp, hm⟩ := ih (List.pairwise_cons.1 h).2
    refine ⟨hp, fun m => ?_⟩
    rw [hm]
    simp
  | case2 a b rest hab ih =>
    obtain ⟨ha, hbr⟩ := List.pairwise_cons.1 h
    obtain ⟨hp, hm⟩ := ih hbr
    refine ⟨List.pairwise_cons.2 ⟨fun m hmem => ?_, hp⟩, fun m => ?_⟩
    · have hlt : a < b := lt_of_le_of_ne (ha b List.mem_cons_self) hab
      rcases List.mem_cons.1 ((hm m).1 hmem) with rfl | hrest
      · exact hlt
      · exact hlt.trans_le ((List.pairwise_cons.1 hbr).1 m hrest)
    · rw [List.mem_cons, hm, List.mem_cons (a := m) (b := a)]
  | case3 ms hne =>
    refine ⟨?_, fun m => Iff.rfl⟩
    cases ms with
    | nil => exact List.Pairwise.nil
    | cons a rest =>
      cases rest with
      | nil => exact List.pairwise_singleton _ _
      | cons b rest => exact (hne a b rest rfl).elim

theorem ofList_spec (ms : List Moment) :
    (ofList ms).dates.Pairwise (· < ·) ∧ ∀ m, m ∈ (ofList ms).dates ↔ m ∈ ms := by
  have hsorted : (ms.mergeSort fun a b => a ≤ b).Pairwise (· ≤ ·) := by
    refine (List.pairwise_mergeSort (fun a b c hab hbc => ?_) (fun a b => ?_) ms).imp fun h => ?_
    · simpa using le_trans (of_decide_eq_true hab) (of_decide_eq_true hbc)
    · simpa using le_total a b
    · simpa using h
  obtain ⟨hp, hm⟩ := dedup_spec hsorted
  exact ⟨hp, fun m => by rw [ofList, hm, List.mem_mergeSort]⟩

/-- A list of dates is followed by its source. -/
theorem follows (P : Moment → Prop) (dates : List Moment) :
    (Cursor.idle (DateSource.mk dates)).Follows P dates := by
  refine Cursor.follows_of_source (R := fun s l => s.dates = l) ⟨⟨?_, ?_⟩, ?_⟩ rfl
  · rintro ⟨_⟩ rfl
    rfl
  · rintro ⟨_⟩ m l rfl
    exact ⟨⟨l⟩, rfl, rfl⟩
  · rintro ⟨_⟩ l d rfl _
    rfl

end DateSource

/-- The members of a list of moments, in ascending order and each once. -/
theorem exists_ascending (ms : List Moment) :
    ∃ l : List Moment, l.Pairwise (· < ·) ∧ ∀ m, m ∈ l ↔ m ∈ ms :=
  ⟨_, DateSource.ofList_spec ms⟩

/-! ### The inclusions -/

namespace Union

variable {σ : Type} [Source σ] {P : Moment → Prop}

/-- Whether a cursor follows a list and holds its head. -/
def Standing (P : Moment → Prop) (c : Cursor σ) (l : List Moment) : Prop :=
  c.held = l.head? ∧ c.Follows P l

theorem standing_fill {c : Cursor σ} {l : List Moment} (h : c.Follows P l) :
    Standing P c.fill l :=
  ⟨h.held, h.fill⟩

theorem standing_drop_fill {c : Cursor σ} {l : List Moment} (h : Standing P c l) {m : Moment}
    (hm : c.held = some m) : Standing P c.drop.fill l.tail := by
  have hfill : c.fill = c := by
    cases c with
    | idle s => simp [Cursor.held] at hm
    | holding m s => rfl
    | ended => rfl
  have := h.2.drop
  rw [hfill] at this
  exact standing_fill this

omit [Source σ] in
theorem least_cons (c : Cursor σ) (cs : List (Cursor σ)) :
    (least (c :: cs) = none ↔ c.held = none ∧ least cs = none) ∧
      ∀ m, least (c :: cs) = some m →
        (∀ a ∈ c.held, m ≤ a) ∧ ∀ b ∈ least cs, m ≤ b := by
  rw [least]
  cases c.held with
  | none => cases least cs <;> simp
  | some a =>
    cases least cs with
    | none => simp
    | some b =>
      simp only [reduceCtorEq, false_and, Option.some.injEq, Option.mem_some_iff, forall_eq',
        true_and]
      split_ifs with hlt
      · exact ⟨hlt.le, le_rfl⟩
      · exact ⟨le_rfl, not_lt.1 hlt⟩

omit [Source σ] in
theorem held_eq_none_of_least {cs : List (Cursor σ)} (h : least cs = none) :
    ∀ c ∈ cs, c.held = none := by
  induction cs with
  | nil => exact fun _ hc => absurd hc List.not_mem_nil
  | cons c cs ih =>
    obtain ⟨hc, hcs⟩ := (least_cons c cs).1.1 h
    exact List.forall_mem_cons.2 ⟨hc, ih hcs⟩

omit [Source σ] in
theorem le_held_of_least {cs : List (Cursor σ)} {m : Moment} (h : least cs = some m) :
    ∀ c ∈ cs, ∀ a ∈ c.held, m ≤ a := by
  induction cs generalizing m with
  | nil => exact fun _ hc => absurd hc List.not_mem_nil
  | cons c cs ih =>
    obtain ⟨hc, hcs⟩ := (least_cons c cs).2 m h
    refine List.forall_mem_cons.2 ⟨hc, fun c' hc' a ha => ?_⟩
    cases hb : least cs with
    | none =>
      have := held_eq_none_of_least hb c' hc'
      rw [this] at ha
      exact absurd ha (by simp)
    | some b => exact (hcs b hb).trans (ih hb c' hc' a ha)

theorem map_held {cs : List (Cursor σ)} {ls : List (List Moment)}
    (h : List.Forall₂ (Standing P) cs ls) : cs.map Cursor.held = ls.map List.head? := by
  induction h with
  | nil => rfl
  | cons hc _ ih => rw [List.map_cons, List.map_cons, hc.1, ih]

/-- The least held moment is the head of a list, and the least of all heads. -/
theorem least_spec {cs : List (Cursor σ)} {ls : List (List Moment)}
    (h : List.Forall₂ (Standing P) cs ls) :
    (least cs = none → ∀ l ∈ ls, l = []) ∧ ∀ m, least cs = some m →
      (∃ l ∈ ls, l.head? = some m) ∧ ∀ l ∈ ls, ∀ a ∈ l.head?, m ≤ a := by
  have hheads := map_held h
  have hls : ∀ l ∈ ls, ∃ c ∈ cs, c.held = l.head? := by
    intro l hl
    have hmem : l.head? ∈ ls.map List.head? := List.mem_map_of_mem hl
    rw [← hheads] at hmem
    exact List.mem_map.1 hmem
  constructor
  · intro hnone l hl
    obtain ⟨c, hc, hheld⟩ := hls l hl
    rw [held_eq_none_of_least hnone c hc] at hheld
    exact List.head?_eq_none_iff.1 hheld.symm
  · intro m hleast
    constructor
    · obtain ⟨c, hc, hheld⟩ := exists_of_least hleast
      have hmem : c.held ∈ cs.map Cursor.held := List.mem_map_of_mem hc
      rw [hheads, hheld] at hmem
      exact List.mem_map.1 hmem
    · intro l hl a ha
      obtain ⟨c, hc, hheld⟩ := hls l hl
      exact le_held_of_least hleast c hc a (hheld ▸ ha)

/-- The lists, of which the first one that begins with the moment loses it. -/
def removeFirst (m : Moment) : List (List Moment) → List (List Moment)
  | [] => []
  | l :: ls => if l.head? = some m then l.tail :: ls else l :: removeFirst m ls

theorem standing_advanceFirst (m : Moment) {cs : List (Cursor σ)} {ls : List (List Moment)}
    (h : List.Forall₂ (Standing P) cs ls) :
    List.Forall₂ (Standing P) (advanceFirst m cs) (removeFirst m ls) := by
  induction h with
  | nil => exact List.Forall₂.nil
  | @cons c l cs ls hc hcs ih =>
    simp only [advanceFirst, removeFirst, ← hc.1]
    by_cases hm : c.held = some m
    · rw [if_pos hm, if_pos hm]
      exact List.Forall₂.cons (standing_drop_fill hc hm) hcs
    · rw [if_neg hm, if_neg hm]
      exact List.Forall₂.cons hc ih

/-- Removing a moment loses no other one. -/
theorem mem_removeFirst {m a : Moment} (ha : a ≠ m) (ls : List (List Moment)) :
    (∃ l ∈ removeFirst m ls, a ∈ l) ↔ ∃ l ∈ ls, a ∈ l := by
  induction ls with
  | nil => simp [removeFirst]
  | cons l ls ih =>
    unfold removeFirst
    split
    · rename_i hl
      obtain ⟨rest, rfl⟩ := List.head?_eq_some_iff.1 hl
      simp [ha]
    · simp only [List.mem_cons, exists_eq_or_imp, ih]

theorem forall_removeFirst {Q : List Moment → Prop} (hQ : ∀ l, Q l → Q l.tail) (m : Moment)
    {ls : List (List Moment)} (h : ∀ l ∈ ls, Q l) : ∀ l ∈ removeFirst m ls, Q l := by
  induction ls with
  | nil => simp [removeFirst]
  | cons l ls ih =>
    rw [List.forall_mem_cons] at h
    unfold removeFirst
    split
    · exact List.forall_mem_cons.2 ⟨hQ l h.1, h.2⟩
    · exact List.forall_mem_cons.2 ⟨h.1, ih h.2⟩

/-! ### The exclusions -/

theorem head_dropWhile_lt {l : List Moment} (hl : l.Pairwise (· < ·)) (m : Moment) :
    (l.dropWhile (· < m)).head? = some m ↔ m ∈ l := by
  have hmem := AscendingList.mem_dropWhile_lt hl m
  constructor
  · intro h
    exact ((hmem m).1 (List.mem_of_mem_head? (Option.mem_def.2 h))).1
  · intro h
    exact AscendingList.head?_of_least (hl.sublist (List.dropWhile_sublist _))
      ((hmem m).2 ⟨h, le_rfl⟩) fun a ha => ((hmem a).1 ha).2

/-- Asking the exclusions for a moment leaves them with all later ones. -/
theorem hasMoment_spec {m : Moment} (hP : P m) {cs : List (Cursor σ)} {ls : List (List Moment)}
    (h : List.Forall₂ (Cursor.Follows P) cs ls) (hls : ∀ l ∈ ls, l.Pairwise (· < ·)) :
    ((hasMoment m cs).1 = true ↔ ∃ l ∈ ls, m ∈ l) ∧
      ∃ ls', List.Forall₂ (Cursor.Follows P) (hasMoment m cs).2 ls' ∧
        (∀ l ∈ ls', l.Pairwise (· < ·)) ∧
        ∀ a, m ≤ a → ((∃ l ∈ ls', a ∈ l) ↔ ∃ l ∈ ls, a ∈ l) := by
  induction h with
  | nil => exact ⟨by simp [hasMoment], [], List.Forall₂.nil, by simp, fun a _ => Iff.rfl⟩
  | @cons c l cs ls hc hcs ih =>
    rw [List.forall_mem_cons] at hls
    obtain ⟨hfound, ls', hls', hasc', hmem'⟩ := ih hls.2
    have hadv := hc.advanceTo hP
    have hhead : (c.advanceTo m).peek.1 = some m ↔ m ∈ l := by
      rw [← head_dropWhile_lt hls.1 m, ← hadv.held]
      rfl
    have hasc : (l.dropWhile (· < m)).Pairwise (· < ·) := hls.1.sublist (List.dropWhile_sublist _)
    have hmem : ∀ a, m ≤ a → (a ∈ l.dropWhile (· < m) ↔ a ∈ l) := by
      intro a ha
      simp [AscendingList.mem_dropWhile_lt hls.1, ha]
    simp only [hasMoment]
    by_cases hm : (c.advanceTo m).peek.1 = some m
    · rw [if_pos hm]
      refine ⟨by simp [hhead.1 hm], l.dropWhile (· < m) :: ls, List.Forall₂.cons hadv.fill hcs,
        List.forall_mem_cons.2 ⟨hasc, hls.2⟩, fun a ha => ?_⟩
      simp only [List.mem_cons, exists_eq_or_imp, hmem a ha]
    · rw [if_neg hm]
      refine ⟨?_, l.dropWhile (· < m) :: ls', List.Forall₂.cons hadv.fill hls',
        List.forall_mem_cons.2 ⟨hasc, hasc'⟩, fun a ha => ?_⟩
      · simp only [hfound, List.mem_cons, exists_eq_or_imp, mt hhead.2 hm, false_or]
      · simp only [List.mem_cons, exists_eq_or_imp, hmem a ha, hmem' a ha]

/-! ### The union -/

/-- What a union has still to produce: the moments after its last one that some
inclusion has and no exclusion has. -/
structure Merges (P : Moment → Prop) (inclusions exclusions : List (Cursor σ))
    (last : Option Moment) (l : List Moment) : Prop where
  ascending : l.Pairwise (· < ·)
  lists : ∃ ins exs : List (List Moment),
    List.Forall₂ (Standing P) inclusions ins ∧
    List.Forall₂ (Cursor.Follows P) exclusions exs ∧
    (∀ k ∈ ins, k.Pairwise (· < ·) ∧ ∀ m ∈ k, P m) ∧
    (∀ k ∈ exs, k.Pairwise (· < ·)) ∧
    ∀ m, m ∈ l ↔ (∃ k ∈ ins, m ∈ k) ∧ (∀ before ∈ last, before < m) ∧ ¬ ∃ k ∈ exs, m ∈ k

theorem tail_keeps (k : List Moment) (h : k.Pairwise (· < ·) ∧ ∀ m ∈ k, P m) :
    k.tail.Pairwise (· < ·) ∧ ∀ m ∈ k.tail, P m :=
  ⟨h.1.sublist (List.tail_sublist k), fun m hm => h.2 m (List.mem_of_mem_tail hm)⟩

/-- The least held moment is the least of all that are to come. -/
theorem least_le {ls : List (List Moment)} (hls : ∀ l ∈ ls, l.Pairwise (· < ·)) {m : Moment}
    (h : ∀ l ∈ ls, ∀ a ∈ l.head?, m ≤ a) {l : List Moment} (hl : l ∈ ls) {a : Moment}
    (ha : a ∈ l) : m ≤ a := by
  cases l with
  | nil => simp at ha
  | cons b rest =>
    have hb : m ≤ b := h _ hl b rfl
    rcases List.mem_cons.1 ha with rfl | hrest
    · exact hb
    · exact hb.trans ((List.pairwise_cons.1 (hls _ hl)).1 a hrest).le

/-- Passing over a moment that is not after the last one leaves the merge. -/
theorem Merges.skip {inclusions exclusions : List (Cursor σ)} {last : Option Moment}
    {l : List Moment} (h : Merges P inclusions exclusions last l) {m before : Moment}
    (hlast : before ∈ last) (hm : m ≤ before) :
    Merges P (advanceFirst m inclusions) exclusions last l := by
  obtain ⟨hl, ins, exs, hins, hexs, hinsP, hexsA, hmem⟩ := h
  refine ⟨hl, removeFirst m ins, exs, standing_advanceFirst m hins, hexs,
    forall_removeFirst tail_keeps m hinsP, hexsA, fun a => ?_⟩
  rw [hmem]
  -- a moment after the last one is not `m`
  have hne (ha : ∀ before ∈ last, before < a) : a ≠ m := (hm.trans_lt (ha before hlast)).ne'
  exact ⟨fun ha => ⟨(mem_removeFirst (hne ha.2.1) ins).2 ha.1, ha.2⟩,
    fun ha => ⟨(mem_removeFirst (hne ha.2.1) ins).1 ha.1, ha.2⟩⟩

/-- The least held moment is the first that may be in the merge, and is so if no
exclusion has it. Passing over it leaves what comes after it. -/
theorem Merges.pass {inclusions exclusions : List (Cursor σ)} {last : Option Moment}
    {l : List Moment} (h : Merges P inclusions exclusions last l) {m : Moment}
    (hleast : least inclusions = some m) (hlast : ∀ before ∈ last, before < m) :
    (∀ a ∈ l, m ≤ a) ∧ (m ∈ l ↔ (hasMoment m exclusions).1 = false) ∧
      ∀ l' : List Moment, l'.Pairwise (· < ·) → (∀ a, a ∈ l' ↔ a ∈ l ∧ m < a) →
        Merges P (advanceFirst m inclusions) (hasMoment m exclusions).2 (some m) l' := by
  obtain ⟨hl, ins, exs, hins, hexs, hinsP, hexsA, hmem⟩ := h
  obtain ⟨⟨k, hk, hkm⟩, hle⟩ := (least_spec hins).2 m hleast
  have hmk : m ∈ k := List.mem_of_mem_head? (Option.mem_def.2 hkm)
  obtain ⟨hfound, exs', hexs', hexsA', hmem'⟩ := hasMoment_spec ((hinsP k hk).2 m hmk) hexs hexsA
  refine ⟨fun a ha => ?_, ?_, fun l' hl' hafter => ?_⟩
  · obtain ⟨⟨k', hk', hak'⟩, -⟩ := (hmem a).1 ha
    exact least_le (fun k hk => (hinsP k hk).1) hle hk' hak'
  · rw [hmem, ← Bool.not_eq_true, hfound]
    exact ⟨fun hm => hm.2.2, fun hex => ⟨⟨k, hk, hmk⟩, hlast, hex⟩⟩
  · refine ⟨hl', removeFirst m ins, exs', standing_advanceFirst m hins, hexs',
      forall_removeFirst tail_keeps m hinsP, hexsA', fun a => ?_⟩
    rw [hafter, hmem]
    simp only [Option.mem_some_iff, forall_eq']
    constructor
    · rintro ⟨⟨hin, -, hexa⟩, hma⟩
      exact ⟨(mem_removeFirst hma.ne' ins).2 hin, hma, by rwa [hmem' a hma.le]⟩
    · rintro ⟨hin, hma, hexa⟩
      exact ⟨⟨(mem_removeFirst hma.ne' ins).1 hin, fun before hb => (hlast before hb).trans hma,
        by rwa [← hmem' a hma.le]⟩, hma⟩

/-- **A union produces the head of its merge.** -/
theorem produceFrom_merges {inclusions exclusions : List (Cursor σ)} {last : Option Moment}
    {l : List Moment} (h : Merges P inclusions exclusions last l) :
    match produceFrom inclusions exclusions last with
    | none => l = []
    | some (m, u) => ∃ l', l = m :: l' ∧ Merges P u.inclusions u.exclusions u.last l' := by
  fun_induction produceFrom inclusions exclusions last generalizing l
  case case1 inclusions exclusions last hleast =>
    obtain ⟨hl, ins, exs, hins, -, -, -, hmem⟩ := h
    have hspec := (least_spec hins).1 hleast
    refine List.eq_nil_iff_forall_not_mem.2 fun m hm => ?_
    obtain ⟨⟨k, hk, hmk⟩, -⟩ := (hmem m).1 hm
    simp [hspec k hk] at hmk
  case case2 inclusions exclusions last m hleast inclusions' hlast ih =>
    obtain ⟨before, hbefore, hm⟩ := (Option.any_eq_true _ _).1 hlast
    exact ih (h.skip (Option.mem_def.2 hbefore) (of_decide_eq_true hm))
  case case3 inclusions exclusions last m hleast inclusions' hlast exclusions' hhas ih =>
    obtain ⟨hmin, hm, hrest⟩ := h.pass hleast fun before hb => by
      simpa [Option.mem_def.1 hb] using hlast
    rw [hhas] at hm hrest
    have hno : m ∉ l := by simpa using hm
    exact ih (hrest l h.ascending fun a => ⟨fun ha =>
      ⟨ha, lt_of_le_of_ne (hmin a ha) fun he => hno (he ▸ ha)⟩, And.left⟩)
  case case4 inclusions exclusions last m hleast inclusions' hlast exclusions' hhas =>
    obtain ⟨hmin, hm, hrest⟩ := h.pass hleast fun before hb => by
      simpa [Option.mem_def.1 hb] using hlast
    rw [hhas] at hm hrest
    have hhead := AscendingList.head?_of_least h.ascending (hm.2 rfl) hmin
    obtain ⟨l', rfl⟩ := List.head?_eq_some_iff.1 hhead
    obtain ⟨hafter, hl'⟩ := List.pairwise_cons.1 h.ascending
    refine ⟨l', rfl, hrest l' hl' fun a => ⟨fun ha => ⟨List.mem_cons_of_mem m ha, hafter a ha⟩,
      fun ha => (List.mem_cons.1 ha.1).resolve_left ha.2.ne'⟩⟩

theorem mem_lists_dropWhile {ls : List (List Moment)} (h : ∀ l ∈ ls, l.Pairwise (· < ·))
    {d m : Moment} :
    (∃ l ∈ ls.map (·.dropWhile (· < d)), m ∈ l) ↔ (∃ l ∈ ls, m ∈ l) ∧ d ≤ m := by
  constructor
  · rintro ⟨_, hmap, hm⟩
    obtain ⟨l, hl, rfl⟩ := List.mem_map.1 hmap
    obtain ⟨hm, hdm⟩ := (AscendingList.mem_dropWhile_lt (h l hl) d m).1 hm
    exact ⟨⟨l, hl, hm⟩, hdm⟩
  · rintro ⟨⟨l, hl, hm⟩, hdm⟩
    exact ⟨_, List.mem_map.2 ⟨l, hl, rfl⟩,
      (AscendingList.mem_dropWhile_lt (h l hl) d m).2 ⟨hm, hdm⟩⟩

theorem merges_seek {inclusions exclusions : List (Cursor σ)} {last : Option Moment}
    {l : List Moment} (h : Merges P inclusions exclusions last l) {d : Moment} (hd : P d) :
    Merges P (inclusions.map fun c => (c.advanceTo d).fill)
      (exclusions.map (Cursor.advanceTo d)) last (l.dropWhile (· < d)) := by
  obtain ⟨hl, ins, exs, hins, hexs, hinsP, hexsA, hmem⟩ := h
  have hsub (k : List Moment) : (k.dropWhile (· < d)).Sublist k := List.dropWhile_sublist _
  refine ⟨hl.sublist (hsub l), ins.map (·.dropWhile (· < d)), exs.map (·.dropWhile (· < d)),
    ?_, ?_, ?_, ?_, fun m => ?_⟩
  · rw [List.forall₂_map_left_iff, List.forall₂_map_right_iff]
    exact hins.imp fun _ _ hc => standing_fill (hc.2.advanceTo hd)
  · rw [List.forall₂_map_left_iff, List.forall₂_map_right_iff]
    exact hexs.imp fun _ _ hc => hc.advanceTo hd
  · rw [List.forall_mem_map]
    exact fun k hk => ⟨(hinsP k hk).1.sublist (hsub k),
      fun m hm => (hinsP k hk).2 m ((hsub k).subset hm)⟩
  · rw [List.forall_mem_map]
    exact fun k hk => (hexsA k hk).sublist (hsub k)
  · rw [AscendingList.mem_dropWhile_lt hl, hmem, mem_lists_dropWhile fun k hk => (hinsP k hk).1,
      mem_lists_dropWhile hexsA]
    constructor
    · rintro ⟨⟨hin, hlast, hex⟩, hdm⟩
      exact ⟨⟨hin, hdm⟩, hlast, fun h => hex h.1⟩
    · rintro ⟨⟨hin, hdm⟩, hlast, hex⟩
      exact ⟨⟨hin, hlast, fun h => hex ⟨h, hdm⟩⟩, hdm⟩

theorem produces_merges (P : Moment → Prop) :
    Cursor.Produces P fun (u : Union σ) l => Merges P u.inclusions u.exclusions u.last l where
  nil {u} h := by
    have hspec := produceFrom_merges h
    show produceFrom u.inclusions u.exclusions u.last = none
    cases hp : produceFrom u.inclusions u.exclusions u.last with
    | none => rfl
    | some found =>
      rw [hp] at hspec
      obtain ⟨l', hl', -⟩ := hspec
      simp at hl'
  cons {u m l} h := by
    have hspec := produceFrom_merges h
    cases hp : produceFrom u.inclusions u.exclusions u.last with
    | none =>
      rw [hp] at hspec
      simp at hspec
    | some found =>
      rw [hp] at hspec
      obtain ⟨l', hl', hnext⟩ := hspec
      obtain ⟨rfl, rfl⟩ := List.cons.inj hl'
      exact ⟨found.2, hp, hnext⟩
  seek h hd := merges_seek h hd

/-- **A union follows the merge of its inclusions without its exclusions.** -/
theorem follows {inclusions exclusions : List (Cursor σ)} {ins exs : List (List Moment)}
    (hins : List.Forall₂ (Cursor.Follows P) inclusions ins)
    (hexs : List.Forall₂ (Cursor.Follows P) exclusions exs)
    (hinsP : ∀ k ∈ ins, k.Pairwise (· < ·) ∧ ∀ m ∈ k, P m)
    (hexsA : ∀ k ∈ exs, k.Pairwise (· < ·)) {l : List Moment} (hl : l.Pairwise (· < ·))
    (hmem : ∀ m, m ∈ l ↔ (∃ k ∈ ins, m ∈ k) ∧ ¬ ∃ k ∈ exs, m ∈ k) :
    (Cursor.idle (Union.of inclusions exclusions)).Follows P l := by
  refine Cursor.follows_of_source (produces_merges P) ⟨hl, ins, exs, ?_, hexs, hinsP, hexsA, ?_⟩
  · show List.Forall₂ (Standing P) (inclusions.map Cursor.fill) ins
    rw [List.forall₂_map_left_iff]
    exact hins.imp fun _ _ hc => standing_fill hc
  · intro m
    rw [hmem]
    show _ ↔ _ ∧ (∀ before ∈ (none : Option Moment), before < m) ∧ _
    simp

end Union

end Recurrence
