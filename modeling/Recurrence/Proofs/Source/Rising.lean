/-
# No cursor goes back

Whatever a rule, its zone and its limits are, the moments that its cursor gives
ascend and stay behind every date that it was told to pass to, and so do those of
every union of such cursors. An exchange, a question with its answer, leaves a
bound on the moments that may still be taken (`Exchange.leaves`): behind a moment
only later ones, behind the end none, behind a date none before it. A cursor rises
above a bound when it takes no other moments and narrows the bound with every
exchange (`Cursor.Rises`). A source shows this by a bound that producing and
seeking keep (`Cursor.rises_of_source`).

Key definitions: `Exchange.leaves`, `Exchange.TakesOnly`, `Cursor.transcript`, `Cursor.Rises`.
Key theorems: `Cursor.rises_of_source`, `RuleSource.rises`, `Union.rises`,
`Tree.transcript_rises`.
-/
import Mathlib.Data.List.Chain
import Recurrence.Proofs.Source.Origins
import Recurrence.Proofs.Source.Seek
import Recurrence.Proofs.Source.Tree
import Recurrence.RecurrenceSet

namespace Recurrence

/-! ### Exchanges -/

/-- A question and its answer. -/
abbrev Exchange := Query × Answer

namespace Exchange

/-- Whether a moment may still be taken after an exchange. -/
def leaves : Exchange → Moment → Prop
  | (.next, .moment (some m)), later => m < later
  | (.next, .moment none), _ => False
  | (.advanceTo date, _), later => date ≤ later
  | _, _ => True

/-- Whether an exchange takes no moment but those with a property. -/
def TakesOnly (B : Moment → Prop) : Exchange → Prop
  | (.next, .moment (some m)) => B m
  | _ => True

/-- Whether an exchange takes what the one right before it looked at. -/
def Foretells : Exchange → Exchange → Prop
  | (.peek, answer), (.next, answer') => answer' = answer
  | _, _ => True

theorem TakesOnly.imp {B B' : Moment → Prop} (hB : ∀ m, B m → B' m) {e : Exchange}
    (h : e.TakesOnly B) : e.TakesOnly B' := by
  unfold TakesOnly at h ⊢
  split at h
  · exact hB _ h
  · trivial

theorem takesOnly_and {B B' : Moment → Prop} {e : Exchange} :
    e.TakesOnly (fun m => B m ∧ B' m) ↔ e.TakesOnly B ∧ e.TakesOnly B' := by
  unfold TakesOnly
  split
  · exact Iff.rfl
  · simp

end Exchange

namespace Cursor

variable {σ : Type} [Source σ] {B B' : Moment → Prop} {c : Cursor σ}

/-- The exchanges of a cursor that is asked a sequence of questions. -/
def transcript (qs : List Query) (c : Cursor σ) : List Exchange :=
  qs.zip (c.replies qs)

theorem transcript_cons (q : Query) (qs : List Query) (c : Cursor σ) :
    c.transcript (q :: qs) = (q, (c.ask q).1) :: (c.ask q).2.transcript qs := rfl

/-- Whether all exchanges of a cursor take moments above a bound only, which
each of them narrows for the later ones. -/
def Rises (B : Moment → Prop) (c : Cursor σ) : Prop :=
  ∀ qs, (∀ e ∈ c.transcript qs, e.TakesOnly B) ∧
    (c.transcript qs).Pairwise fun e e' => e'.TakesOnly e.leaves

theorem Rises.imp (hB : ∀ m, B m → B' m) (h : c.Rises B) : c.Rises B' :=
  fun qs => ⟨fun e he => ((h qs).1 e he).imp hB, (h qs).2⟩

/-- One exchange, and what rises behind it. -/
theorem Rises.ask (h : c.Rises B) (q : Query) :
    Exchange.TakesOnly B (q, (c.ask q).1) ∧
      (c.ask q).2.Rises fun m => B m ∧ Exchange.leaves (q, (c.ask q).1) m := by
  have hall := fun qs => h (q :: qs)
  simp only [transcript_cons, List.forall_mem_cons, List.pairwise_cons] at hall
  refine ⟨(hall []).1.1, fun qs => ?_⟩
  obtain ⟨⟨-, hbound⟩, hlater, hpairs⟩ := hall qs
  exact ⟨fun e he => Exchange.takesOnly_and.2 ⟨hbound e he, hlater e he⟩, hpairs⟩

theorem Rises.held (h : c.Rises B) {m : Moment} (hm : c.fill.held = some m) : B m := by
  have htakes := (h.ask .next).1
  simp only [Cursor.ask, Cursor.next, hm] at htakes
  exact htakes

theorem Rises.fill (h : c.Rises B) : c.fill.Rises B :=
  (h.ask .peek).2.imp fun _ hm => hm.1

theorem Rises.drop (h : c.Rises B) {m : Moment} (hm : c.fill.held = some m) :
    c.fill.drop.Rises fun later => B later ∧ m < later := by
  have hrest := (h.ask .next).2
  simp only [Cursor.ask, Cursor.next, hm] at hrest
  exact hrest

theorem Rises.advanceTo (h : c.Rises B) (d : Moment) :
    (c.advanceTo d).Rises fun later => B later ∧ d ≤ later :=
  (h.ask (.advanceTo d)).2

/-- The moments that are taken lie above the bound. -/
theorem Rises.take (h : c.Rises B) (n : Nat) : ∀ m ∈ (c.take n).1, B m := by
  induction n generalizing B c with
  | zero => exact fun m hm => absurd hm (by simp [Cursor.take, Cursor.takeOnto])
  | succ n ih =>
    rw [take_succ, Cursor.next]
    cases hheld : c.fill.held with
    | none => simp
    | some m =>
      simp only [List.forall_mem_cons]
      exact ⟨h.held hheld, fun m' hm' => (ih (h.drop hheld) m' hm').1⟩

/-! ### From one exchange to all -/

/-- What a family of bounds must keep for the cursors to rise above them. -/
structure Bounds (R : (Moment → Prop) → Cursor σ → Prop) : Prop where
  ask : ∀ {B c}, R B c → ∀ q, Exchange.TakesOnly B (q, (c.ask q).1) ∧
    R (fun m => B m ∧ Exchange.leaves (q, (c.ask q).1) m) (c.ask q).2

theorem rises_of_bounds {R : (Moment → Prop) → Cursor σ → Prop} (hR : Bounds R) (h : R B c) :
    c.Rises B := by
  intro qs
  induction qs generalizing B c with
  | nil => exact ⟨fun _ he => absurd he List.not_mem_nil, List.Pairwise.nil⟩
  | cons q qs ih =>
    obtain ⟨htakes, hrest⟩ := hR.ask h q
    obtain ⟨hall, hpairs⟩ := ih hrest
    rw [transcript_cons, List.forall_mem_cons, List.pairwise_cons]
    exact ⟨⟨htakes, fun e he => (Exchange.takesOnly_and.1 (hall e he)).1⟩,
      fun e he => (Exchange.takesOnly_and.1 (hall e he)).2, hpairs⟩

/-- The cursors of a family of bounds of sources. -/
def OverSource (R : (Moment → Prop) → σ → Prop) (B : Moment → Prop) : Cursor σ → Prop
  | idle s => R B s
  | holding m s => B m ∧ R (fun later => B later ∧ m < later) s
  | ended => True

/-- What producing and seeking must keep for a source to rise above a bound. -/
structure Climbs (R : (Moment → Prop) → σ → Prop) : Prop where
  imp : ∀ {B B' s}, (∀ m, B m → B' m) → R B s → R B' s
  produce : ∀ {B s s' m}, R B s → Source.produce s = some (m, s') →
    B m ∧ R (fun later => B later ∧ m < later) s'
  seek : ∀ {B s}, R B s → ∀ d,
    OverSource R (fun later => B later ∧ d ≤ later) (Source.seek d s)

variable {R : (Moment → Prop) → σ → Prop}

theorem Climbs.overSource_imp (hR : Climbs R) (hB : ∀ m, B m → B' m) (h : OverSource R B c) :
    OverSource R B' c := by
  cases c with
  | idle s => exact hR.imp hB h
  | holding m s => exact ⟨hB m h.1, hR.imp (fun later hl => ⟨hB later hl.1, hl.2⟩) h.2⟩
  | ended => trivial

theorem Climbs.fill (hR : Climbs R) (h : OverSource R B c) :
    OverSource R B c.fill ∧ ((∃ m s, c.fill = holding m s) ∨ c.fill = ended) := by
  cases c with
  | idle s =>
    cases hstep : Source.produce s with
    | none => simp only [Cursor.fill, hstep, OverSource, or_true, and_self]
    | some p =>
      have hnext := hR.produce h hstep
      simp only [Cursor.fill, hstep]
      exact ⟨hnext, Or.inl ⟨_, _, rfl⟩⟩
  | holding m s => exact ⟨h, Or.inl ⟨m, s, rfl⟩⟩
  | ended => exact ⟨trivial, Or.inr rfl⟩

theorem Climbs.advanceTo (hR : Climbs R) (h : OverSource R B c) (d : Moment) :
    OverSource R (fun later => B later ∧ d ≤ later) (c.advanceTo d) := by
  cases c with
  | idle s => exact hR.seek h d
  | holding m s =>
    simp only [Cursor.advanceTo]
    by_cases hlt : m < d
    · rw [if_pos hlt]
      exact hR.overSource_imp (fun _ hm => ⟨hm.1.1, hm.2⟩) (hR.seek h.2 d)
    · rw [if_neg hlt]
      have hdm : d ≤ m := not_lt.1 hlt
      exact ⟨⟨h.1, hdm⟩, hR.imp (fun _ hm => ⟨⟨hm.1, hdm.trans hm.2.le⟩, hm.2⟩) h.2⟩
  | ended => trivial

theorem Climbs.bounds (hR : Climbs R) : Bounds (OverSource R) where
  ask {B c} h q := by
    obtain ⟨hfill, hcases⟩ := hR.fill h
    cases q with
    | next =>
      simp only [Cursor.ask, Cursor.next]
      rcases hcases with ⟨m, s, hc⟩ | hc
      · rw [hc] at hfill ⊢
        exact hfill
      · rw [hc]
        exact ⟨trivial, trivial⟩
    | peek => exact ⟨trivial, hR.overSource_imp (fun _ hm => ⟨hm, trivial⟩) hfill⟩
    | hasNext => exact ⟨trivial, hR.overSource_imp (fun _ hm => ⟨hm, trivial⟩) hfill⟩
    | advanceTo d => exact ⟨trivial, hR.advanceTo h d⟩

/-- **A source whose bound is kept by producing and seeking rises above it.** -/
theorem rises_of_source (hR : Climbs R) {s : σ} (h : R B s) : (idle s).Rises B :=
  rises_of_bounds hR.bounds (show OverSource R B (idle s) from h)

/-- What rises above a bound produces moments above it only. -/
theorem Rises.moments {s : σ} (h : (idle s).Rises B) : ∀ m ∈ Source.moments s, B m := by
  intro m hm
  obtain ⟨n, hn, rfl⟩ := List.getElem_of_mem hm
  clear hm
  induction n generalizing s B with
  | zero =>
    cases hstep : Source.produce s with
    | none => simp [Source.moments_none hstep] at hn
    | some p =>
      simp only [Source.moments_some hstep, List.getElem_cons_zero]
      exact h.held (by simp only [Cursor.fill, hstep, Cursor.held])
  | succ n ih =>
    cases hstep : Source.produce s with
    | none => simp [Source.moments_none hstep] at hn
    | some p =>
      simp only [Source.moments_some hstep, List.getElem_cons_succ]
      have hrest := h.drop (m := p.1) (by simp only [Cursor.fill, hstep, Cursor.held])
      simp only [Cursor.fill, hstep, Cursor.drop] at hrest
      exact (ih hrest (by simpa [Source.moments_some hstep] using hn)).1

/-- Looking at the next moment first changes nothing for the one who takes it. -/
theorem fill_fill (c : Cursor σ) : c.fill.fill = c.fill := by
  cases c with
  | idle s => cases hstep : Source.produce s <;> simp only [Cursor.fill, hstep]
  | holding m s => rfl
  | ended => rfl

theorem transcript_foretells (qs : List Query) (c : Cursor σ) :
    (c.transcript qs).IsChain Exchange.Foretells := by
  induction qs generalizing c with
  | nil => exact List.isChain_nil
  | cons q qs ih =>
    cases qs with
    | nil => exact List.isChain_singleton _
    | cons q' qs =>
      have hrest := ih (c.ask q).2
      rw [transcript_cons] at hrest
      rw [transcript_cons, transcript_cons, List.isChain_cons_cons]
      refine ⟨?_, hrest⟩
      unfold Exchange.Foretells
      split
      · rename_i heq heq'
        obtain ⟨rfl, rfl⟩ := Prod.mk.inj heq
        obtain ⟨rfl, rfl⟩ := Prod.mk.inj heq'
        simp only [Cursor.ask, Cursor.peek, Cursor.next, fill_fill]
      · trivial

end Cursor

/-! ### Rules -/

namespace RuleSource

/-- Whether all instants that are still new to a source lie above a bound. -/
def NewAbove (B : Moment → Prop) (s : RuleSource) : Prop :=
  ∀ c : Stamp, s.isNew (s.instant c) = true → B (s.instant c)

theorem isNew_of_originFrom {s : RuleSource} {candidates candidates' : Candidates} {c : Stamp}
    (h : s.originFrom candidates = some (c, candidates')) : s.isNew (s.instant c) = true := by
  fun_induction originFrom s candidates with
  | case1 => simp at h
  | case2 => simp at h
  | case3 => simp at h
  | case4 candidates c' candidates'' hstep hpast hnew hspent =>
    obtain ⟨rfl, -⟩ := Prod.mk.inj (Option.some.inj h)
    exact hnew
  | case5 candidates c' candidates'' hstep hpast hnew ih => exact ih h

/-- Behind an instant only later ones are new. -/
theorem newAbove_produce {B : Moment → Prop} {s s' : RuleSource} {m : Moment}
    (h : s.NewAbove B) (hstep : s.produce = some (m, s')) :
    B m ∧ s'.NewAbove fun later => B later ∧ m < later := by
  rw [show s.produce = _ from s.produce_eq] at hstep
  obtain ⟨⟨c, candidates⟩, horigin, heq⟩ := Option.map_eq_some_iff.1 hstep
  obtain ⟨rfl, rfl⟩ := Prod.mk.inj heq
  have hnew := isNew_of_originFrom horigin
  refine ⟨h c hnew, fun c' hc' => ?_⟩
  have hlater : (s.after (s.instant c)).isNew (s.instant c') = true := hc'
  rw [isNew_after hnew] at hlater
  exact ⟨h c' hlater.2, hlater.1⟩

theorem newAbove_skip {B : Moment → Prop} {s : RuleSource} (h : s.NewAbove B) (d : Moment) :
    Cursor.OverSource NewAbove (fun later => B later ∧ d ≤ later) (s.skip d) := by
  induction hn : s.size using Nat.strong_induction_on generalizing s B with
  | _ n ih =>
    cases hstep : s.produce with
    | none =>
      rw [skip_none hstep]
      trivial
    | some p =>
      obtain ⟨m, s'⟩ := p
      obtain ⟨hm, hrest⟩ := newAbove_produce h hstep
      rw [skip_some hstep]
      by_cases hlt : m < d
      · rw [if_pos hlt]
        exact ih _ (hn ▸ size_produce hstep) (fun c hc => (hrest c hc).1) rfl
      · rw [if_neg hlt]
        have hdm : d ≤ m := not_lt.1 hlt
        refine ⟨⟨hm, hdm⟩, fun c hc => ?_⟩
        obtain ⟨hB, hlater⟩ := hrest c hc
        exact ⟨⟨hB, hdm.trans hlater.le⟩, hlater⟩

theorem newAbove_prune {B : Moment → Prop} {s : RuleSource} (h : s.NewAbove B) (d : Moment) :
    (s.prune d).NewAbove B := by
  by_cases hprunes : s.Prunes
  · rw [prune_of hprunes]
    exact h
  · rw [prune_of_not hprunes]
    exact h

theorem climbs : Cursor.Climbs NewAbove where
  imp hB h c hc := hB _ (h c hc)
  produce h hstep := newAbove_produce h hstep
  seek h d := newAbove_skip (newAbove_prune h d) d

/-- **A rule rises above what its new instants have in common.** -/
theorem rises {B : Moment → Prop} {s : RuleSource} (h : s.NewAbove B) : (Cursor.idle s).Rises B :=
  Cursor.rises_of_source climbs h

end RuleSource

/-! ### Lists of dates -/

/-- **A list of dates rises above what its dates have in common.** -/
theorem DateSource.rises {B : Moment → Prop} {s : DateSource} (hs : s.dates.Pairwise (· < ·))
    (h : ∀ m ∈ s.dates, B m) : (Cursor.idle s).Rises B := by
  refine Cursor.rises_of_source
    (R := fun B s => s.dates.Pairwise (· < ·) ∧ ∀ m ∈ s.dates, B m) ⟨?_, ?_, ?_⟩ ⟨hs, h⟩
  · intro B B' s hB hs
    exact ⟨hs.1, fun m hm => hB m (hs.2 m hm)⟩
  · rintro B ⟨dates⟩ s' m ⟨hasc, hall⟩ hstep
    cases dates with
    | nil => exact absurd hstep (by simp [Source.produce])
    | cons a rest =>
      obtain ⟨rfl, rfl⟩ := Prod.mk.inj (Option.some.inj hstep)
      obtain ⟨hfirst, hasc⟩ := List.pairwise_cons.1 hasc
      rw [List.forall_mem_cons] at hall
      exact ⟨hall.1, hasc, fun m hm => ⟨hall.2 m hm, hfirst m hm⟩⟩
  · rintro B ⟨dates⟩ ⟨hasc, hall⟩ d
    refine ⟨hasc.sublist (List.dropWhile_sublist _), fun m hm => ?_⟩
    obtain ⟨hm, hdm⟩ := (AscendingList.mem_dropWhile_lt hasc d m).1 hm
    exact ⟨hall m hm, hdm⟩

/-! ### Unions -/

namespace Union

variable {σ : Type} [Source σ] {B : Moment → Prop}

/-- Whether all moments of the inclusions that lie behind the last one lie above
a bound. -/
def InclusionsAbove (B : Moment → Prop) (u : Union σ) : Prop :=
  ∀ c ∈ u.inclusions, c.Rises fun m => (∀ before ∈ u.last, before < m) → B m

theorem fill_of_held {c : Cursor σ} {m : Moment} (h : c.held = some m) : c.fill = c := by
  cases c with
  | idle s => exact absurd h (by simp [Cursor.held])
  | holding m s => rfl
  | ended => rfl

/-- Taking a moment from the inclusions leaves each of them as high as it was. -/
theorem forall_rises_advanceFirst (m : Moment) {cs : List (Cursor σ)}
    (h : ∀ c ∈ cs, c.Rises B) : ∀ c ∈ advanceFirst m cs, c.Rises B := by
  induction cs with
  | nil => exact h
  | cons c cs ih =>
    rw [List.forall_mem_cons] at h
    unfold advanceFirst
    by_cases hm : c.held = some m
    · rw [if_pos hm, List.forall_mem_cons]
      have hdrop := h.1.drop (m := m) (by rw [fill_of_held hm, hm])
      rw [fill_of_held hm] at hdrop
      exact ⟨hdrop.fill.imp fun _ hl => hl.1, h.2⟩
    · rw [if_neg hm, List.forall_mem_cons]
      exact ⟨h.1, ih h.2⟩

/-- **A union takes moments of its inclusions only**, each behind the last. -/
theorem inclusionsAbove_produceFrom {inclusions exclusions : List (Cursor σ)}
    {last : Option Moment} {m : Moment} {u : Union σ}
    (h : ∀ c ∈ inclusions, c.Rises fun m => (∀ before ∈ last, before < m) → B m)
    (hstep : produceFrom inclusions exclusions last = some (m, u)) :
    B m ∧ u.InclusionsAbove fun later => B later ∧ m < later := by
  fun_induction produceFrom inclusions exclusions last with
  | case1 => simp at hstep
  | case2 inclusions exclusions last m' hleast inclusions' hlast ih =>
    exact ih (forall_rises_advanceFirst m' h) hstep
  | case3 inclusions exclusions last m' hleast inclusions' hlast exclusions' hhas ih =>
    have hlast' : ∀ before ∈ last, before < m' := fun before hb => by
      simpa [Option.mem_def.1 hb] using hlast
    refine ih (fun c hc => (forall_rises_advanceFirst m' h c hc).imp fun x hx hm' => ?_) hstep
    exact hx fun before hb => (hlast' before hb).trans (hm' m' rfl)
  | case4 inclusions exclusions last m' hleast inclusions' hlast exclusions' hhas =>
    obtain ⟨rfl, rfl⟩ := Prod.mk.inj (Option.some.inj hstep)
    have hlast' : ∀ before ∈ last, before < m' := fun before hb => by
      simpa [Option.mem_def.1 hb] using hlast
    obtain ⟨c, hc, hheld⟩ := exists_of_least hleast
    refine ⟨(h c hc).held (by rw [fill_of_held hheld, hheld]) hlast', fun c hc => ?_⟩
    refine (forall_rises_advanceFirst m' h c hc).imp fun x hx hm' => ?_
    exact ⟨hx fun before hb => (hlast' before hb).trans (hm' m' rfl), hm' m' rfl⟩

theorem climbs : Cursor.Climbs (InclusionsAbove (σ := σ)) where
  imp hB h c hc := (h c hc).imp fun m hm hlast => hB m (hm hlast)
  produce h hstep := inclusionsAbove_produceFrom h hstep
  seek {B u} h d := by
    refine List.forall_mem_map.2 fun c hc => ?_
    exact ((h c hc).advanceTo d).fill.imp fun m hm hlast => ⟨hm.1 hlast, hm.2⟩

/-- **A union rises where its inclusions do**, whatever its exclusions are. -/
theorem rises {inclusions exclusions : List (Cursor σ)} (h : ∀ c ∈ inclusions, c.Rises B) :
    (Cursor.idle (Union.of inclusions exclusions)).Rises B := by
  apply Cursor.rises_of_source climbs
  show ∀ c ∈ inclusions.map Cursor.fill, c.Rises _
  rw [List.forall_mem_map]
  exact fun c hc => (h c hc).fill.imp fun m hm _ => hm

end Union

/-! ### Trees of unions -/

theorem Cursor.Embeds.rises {α γ : Type} [Source α] [Source γ] {f : α → γ}
    (hf : Cursor.Embeds f) {B : Moment → Prop} {s : α} (h : (Cursor.idle s).Rises B) :
    (Cursor.idle (f s)).Rises B := by
  intro qs
  have hreplies : (Cursor.idle (f s)).replies qs = (Cursor.idle s).replies qs :=
    hf.on.replies (P := fun _ => True) (c := .idle s) trivial qs fun _ _ => trivial
  unfold Cursor.transcript
  rw [hreplies]
  exact h qs

namespace Tree

/-- A tree of unions rises where its leaves do. -/
theorem rises {σ : Type} [Source σ] {B : Moment → Prop} : ∀ {depth : Nat} {t : Tree σ depth},
    (∀ s, HasLeaf s depth t → (Cursor.idle s).Rises B) → (Cursor.idle (nested depth t)).Rises B
  | 0, s, h => h s rfl
  | depth + 1, .inl t, h => Cursor.embeds_inl.rises (rises (t := t) h)
  | depth + 1, .inr (inclusions, exclusions), h => by
    apply Cursor.embeds_inr.rises
    apply Union.rises
    rw [List.forall_mem_map]
    exact fun t ht => rises fun s hs => h s (Or.inl ⟨t, ht, hs⟩)

/-- **No tree of unions goes back.** Its leaves may be rules, with any fields,
start, zone and limits and in any state, and lists of any dates. Whatever it is
asked, of two exchanges the later one takes no moment that the earlier one does
not leave: behind a moment only later ones, behind the end none, and none before
a date that was passed to. And a moment that is looked at is the one that is
taken next. -/
theorem transcript_rises {depth : Nat} {t : Tree LineSource depth}
    (h : ∀ s : DateSource, HasLeaf (.inr s) depth t → ∃ ms, s = .ofList ms) (qs : List Query) :
    let exchanges := (Cursor.idle (nested depth t)).transcript qs
    exchanges.Pairwise (fun e e' => e'.TakesOnly e.leaves) ∧
      exchanges.IsChain Exchange.Foretells := by
  have hleaves : ∀ s, HasLeaf s depth t → (Cursor.idle s).Rises fun _ => True := by
    intro s hs
    cases s with
    | inl s => exact Cursor.embeds_inl.rises (RuleSource.rises fun _ _ => trivial)
    | inr s =>
      obtain ⟨ms, rfl⟩ := h s hs
      exact Cursor.embeds_inr.rises
        (DateSource.rises (DateSource.ofList_spec ms).1 fun _ _ => trivial)
  exact ⟨(rises hleaves qs).2, Cursor.transcript_foretells qs _⟩

/-- A daily rule on clocks that run backwards and a list of dates, without
another date. -/
def backwards : Tree LineSource 1 :=
  .inr ([.inl (.of (.every .daily) (.atTime 1969 12 30 9 0 0) ⟨Neg.neg, id⟩ .standard),
      .inr (.ofList [.onDate 1970 1 5, .onDate 1969 12 25])],
    [.inr (.ofList [.onDate 1970 1 5])])

theorem transcript_rises_backwards :
    (∀ s : DateSource, HasLeaf (.inr s) 1 backwards → ∃ ms, s = .ofList ms) ∧
      let exchanges := (Cursor.idle (nested 1 backwards)).transcript
        [.peek, .next, .advanceTo (.onDate 1969 12 30), .next, .peek, .next]
      exchanges.Pairwise (fun e e' => e'.TakesOnly e.leaves) ∧
        exchanges.IsChain Exchange.Foretells := by
  have h : ∀ s : DateSource, HasLeaf (.inr s) 1 backwards → ∃ ms, s = .ofList ms := by
    intro s hs
    obtain ⟨t, ht, hs⟩ | ⟨t, ht, hs⟩ := hs
    · rcases List.mem_cons.1 ht with rfl | ht
      · exact absurd hs Sum.inr_ne_inl
      · rw [List.mem_singleton.1 ht] at hs
        exact ⟨_, Sum.inr.inj hs⟩
    · rw [List.mem_singleton.1 ht] at hs
      exact ⟨_, Sum.inr.inj hs⟩
  exact ⟨h, transcript_rises h _⟩

end Tree

end Recurrence
