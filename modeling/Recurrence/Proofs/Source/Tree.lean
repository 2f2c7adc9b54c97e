/-
# Trees of unions

A union may have unions among its inclusions and exclusions. A source inside
another answers as it does alone, so a tree of unions follows the ascending list
of its moments when its leaves follow theirs, by induction on its depth.

Key definitions: `Cursor.EmbedsOn`, `Tree`, `Tree.Has`, `Tree.Lists`.
Key theorems: `Cursor.EmbedsOn.replies`, `Tree.exists_listed`, `Tree.lists_moments`.
-/
import Recurrence.Proofs.Source.Union

namespace Recurrence

/-! ### Sources inside others -/

namespace Cursor

variable {α γ : Type}

/-- A cursor of a source, as a cursor of the source that holds it. -/
def through (f : α → γ) : Cursor α → Cursor γ
  | idle s => idle (f s)
  | holding m s => holding m (f s)
  | ended => ended

/-- Whether the source of a cursor has a property, if there is more to come. -/
def Holds (R : α → Prop) : Cursor α → Prop
  | idle s => R s
  | holding _ s => R s
  | ended => True

variable [Source α] [Source γ] {P : Moment → Prop} {R : α → Prop}

/-- Whether a source does what the source inside it does, as long as that keeps a
property and is only told to pass to dates with a property. -/
structure EmbedsOn (P : Moment → Prop) (R : α → Prop) (f : α → γ) : Prop where
  produce : ∀ {s}, R s → Source.produce (f s) = (Source.produce s).map fun (m, s) => (m, f s)
  seek : ∀ {s d}, R s → P d → Source.seek d (f s) = through f (Source.seek d s)
  produce_keeps : ∀ {s s' m}, R s → Source.produce s = some (m, s') → R s'
  seek_keeps : ∀ {s d}, R s → P d → Holds R (Source.seek d s)

theorem EmbedsOn.fill {f : α → γ} (hf : EmbedsOn P R f) {c : Cursor α} (h : c.Holds R) :
    (c.through f).fill = c.fill.through f ∧ c.fill.Holds R := by
  cases c with
  | idle s =>
    simp only [through, Cursor.fill, hf.produce h]
    cases hstep : Source.produce s with
    | none => exact ⟨rfl, trivial⟩
    | some p => exact ⟨rfl, hf.produce_keeps h hstep⟩
  | holding m s => exact ⟨rfl, h⟩
  | ended => exact ⟨rfl, trivial⟩

theorem EmbedsOn.advanceTo {f : α → γ} (hf : EmbedsOn P R f) {d : Moment} (hd : P d)
    {c : Cursor α} (h : c.Holds R) :
    (c.through f).advanceTo d = (c.advanceTo d).through f ∧ (c.advanceTo d).Holds R := by
  cases c with
  | idle s => exact ⟨hf.seek h hd, hf.seek_keeps h hd⟩
  | holding m s =>
    simp only [through, Cursor.advanceTo]
    split
    · exact ⟨hf.seek h hd, hf.seek_keeps h hd⟩
    · exact ⟨rfl, h⟩
  | ended => exact ⟨rfl, trivial⟩

theorem EmbedsOn.ask {f : α → γ} (hf : EmbedsOn P R f) {c : Cursor α} (h : c.Holds R)
    (q : Query) (hq : Query.DatesIn P [q]) :
    (c.through f).ask q = ((c.ask q).1, (c.ask q).2.through f) ∧ (c.ask q).2.Holds R := by
  obtain ⟨hfill, hholds⟩ := hf.fill h
  have hheld : (c.fill.through f).held = c.fill.held := by cases c.fill <;> rfl
  cases q with
  | next =>
    simp only [Cursor.ask, Cursor.next, hfill, hheld]
    generalize c.fill = c' at hholds
    cases c' with
    | idle s => exact ⟨rfl, hholds⟩
    | holding m s => exact ⟨rfl, hholds⟩
    | ended => exact ⟨rfl, trivial⟩
  | peek =>
    simp only [Cursor.ask, Cursor.peek, hfill, hheld]
    exact ⟨trivial, hholds⟩
  | hasNext =>
    simp only [Cursor.ask, Cursor.hasNext, hfill, hheld]
    exact ⟨trivial, hholds⟩
  | advanceTo d =>
    obtain ⟨hadvance, hholds'⟩ := hf.advanceTo (hq d List.mem_cons_self) h
    exact ⟨congrArg (Prod.mk Answer.done) hadvance, hholds'⟩

/-- **A source answers as the source inside it.** -/
theorem EmbedsOn.replies {f : α → γ} (hf : EmbedsOn P R f) {c : Cursor α} (h : c.Holds R)
    (qs : List Query) (hqs : Query.DatesIn P qs) : (c.through f).replies qs = c.replies qs := by
  induction qs generalizing c with
  | nil => rfl
  | cons q qs ih =>
    obtain ⟨hq, hqs⟩ := Query.datesIn_cons.1 hqs
    obtain ⟨hask, hholds⟩ := hf.ask h q hq
    simp only [Cursor.replies, hask, ih hholds hqs]

/-- Whether a source does what the source inside it does. -/
structure Embeds (f : α → γ) : Prop where
  produce : ∀ s, Source.produce (f s) = (Source.produce s).map fun (m, s) => (m, f s)
  seek : ∀ d s, Source.seek d (f s) = through f (Source.seek d s)

theorem Embeds.on {f : α → γ} (hf : Embeds f) : EmbedsOn P (fun _ => True) f where
  produce _ := hf.produce _
  seek _ _ := hf.seek _ _
  produce_keeps _ _ := trivial
  seek_keeps {s d} _ _ := by cases Source.seek d s <;> trivial

/-- A source follows what the source inside it follows. -/
theorem Embeds.follows {f : α → γ} (hf : Embeds f) {s : α} {l : List Moment}
    (h : (idle s).Follows P l) : (idle (f s)).Follows P l := by
  intro qs hqs
  rw [← h qs hqs]
  exact hf.on.replies (c := idle s) trivial qs hqs

theorem embeds_inl {β : Type} [Source β] : Embeds (Sum.inl : α → α ⊕ β) where
  produce _ := rfl
  seek d s := by
    simp only [Source.seek]
    cases Source.seek d s <;> rfl

theorem embeds_inr {β : Type} [Source β] : Embeds (Sum.inr : β → α ⊕ β) where
  produce _ := rfl
  seek d s := by
    simp only [Source.seek]
    cases Source.seek d s <;> rfl

end Cursor

/-! ### Trees of unions -/

/-- A source at depth 0; at any greater depth a tree of less depth, or the
inclusions and the exclusions of a union of such trees. -/
def Tree (σ : Type) : Nat → Type
  | 0 => σ
  | depth + 1 => Tree σ depth ⊕ (List (Tree σ depth) × List (Tree σ depth))

namespace Tree

variable {σ : Type}

/-- Whether a source is a leaf of a tree. -/
def HasLeaf (s : σ) : (depth : Nat) → Tree σ depth → Prop
  | 0, s' => s = s'
  | depth + 1, .inl t => HasLeaf s depth t
  | depth + 1, .inr (inclusions, exclusions) =>
    (∃ t ∈ inclusions, HasLeaf s depth t) ∨ ∃ t ∈ exclusions, HasLeaf s depth t

/-- Whether a moment is in a tree whose leaves have the moments of lists: a
union has the moments that some inclusion has and no exclusion has. -/
def Has (lists : σ → List Moment) (m : Moment) : (depth : Nat) → Tree σ depth → Prop
  | 0, s => m ∈ lists s
  | depth + 1, .inl t => Has lists m depth t
  | depth + 1, .inr (inclusions, exclusions) =>
    (∃ t ∈ inclusions, Has lists m depth t) ∧ ¬ ∃ t ∈ exclusions, Has lists m depth t

variable [Source σ]

/-- The unions of a tree, none of them asked yet. -/
def nested : (depth : Nat) → Tree σ depth → Nested σ depth
  | 0, s => s
  | depth + 1, .inl t => .inl (nested depth t)
  | depth + 1, .inr (inclusions, exclusions) =>
    .inr (Union.of (inclusions.map fun t => .idle (nested depth t))
      (exclusions.map fun t => .idle (nested depth t)))

variable {P : Moment → Prop}

/-- What a tree of unions is to follow: an ascending list of its moments. -/
def Listed (P : Moment → Prop) (lists : σ → List Moment) (depth : Nat) (t : Tree σ depth)
    (l : List Moment) : Prop :=
  l.Pairwise (· < ·) ∧ (∀ m, m ∈ l ↔ Has lists m depth t) ∧ (∀ m ∈ l, P m) ∧
    (Cursor.idle (nested depth t)).Follows P l

omit [Source σ] in
theorem exists_lists {depth : Nat} {Q : Tree σ depth → List Moment → Prop} :
    ∀ ts : List (Tree σ depth), (∀ t ∈ ts, ∃ l, Q t l) → ∃ ls, List.Forall₂ Q ts ls
  | [], _ => ⟨[], List.Forall₂.nil⟩
  | t :: ts, h => by
    obtain ⟨l, hl⟩ := h t List.mem_cons_self
    obtain ⟨ls, hls⟩ := exists_lists ts fun t' ht' => h t' (List.mem_cons_of_mem t ht')
    exact ⟨l :: ls, List.Forall₂.cons hl hls⟩

theorem Listed.has {lists : σ → List Moment} {depth : Nat} {ts : List (Tree σ depth)}
    {ls : List (List Moment)} (h : List.Forall₂ (Listed P lists depth) ts ls) (m : Moment) :
    (∃ l ∈ ls, m ∈ l) ↔ ∃ t ∈ ts, Has lists m depth t := by
  induction h with
  | nil => simp
  | cons hl _ ih => simp only [List.mem_cons, exists_eq_or_imp, ih, hl.2.1 m]

theorem Listed.all {lists : σ → List Moment} {depth : Nat} {ts : List (Tree σ depth)}
    {ls : List (List Moment)} (h : List.Forall₂ (Listed P lists depth) ts ls) :
    ∀ l ∈ ls, l.Pairwise (· < ·) ∧ ∀ m ∈ l, P m := by
  induction h with
  | nil => simp
  | cons hl _ ih => exact List.forall_mem_cons.2 ⟨⟨hl.1, hl.2.2.1⟩, ih⟩

/-- **A tree of unions follows the ascending list of its moments**, when its
leaves follow theirs. -/
theorem exists_listed {lists : σ → List Moment} : ∀ {depth : Nat} {t : Tree σ depth},
    (∀ s, HasLeaf s depth t → (lists s).Pairwise (· < ·) ∧ (∀ m ∈ lists s, P m) ∧
      (Cursor.idle s).Follows P (lists s)) →
    ∃ l, Listed P lists depth t l
  | 0, s, h => ⟨lists s, (h s rfl).1, fun _ => Iff.rfl, (h s rfl).2⟩
  | depth + 1, .inl t, h => by
    obtain ⟨l, hl, hmem, hP, hf⟩ := exists_listed (t := t) h
    exact ⟨l, hl, hmem, hP, Cursor.embeds_inl.follows hf⟩
  | depth + 1, .inr (inclusions, exclusions), h => by
    obtain ⟨ins, hins⟩ := exists_lists inclusions fun t ht =>
      exists_listed (t := t) fun s hs => h s (Or.inl ⟨t, ht, hs⟩)
    obtain ⟨exs, hexs⟩ := exists_lists exclusions fun t ht =>
      exists_listed (t := t) fun s hs => h s (Or.inr ⟨t, ht, hs⟩)
    obtain ⟨l, hl, hmem⟩ := exists_ascending (ins.flatten.filter fun m => ∀ k ∈ exs, m ∉ k)
    have hmem' : ∀ m, m ∈ l ↔ (∃ k ∈ ins, m ∈ k) ∧ ¬ ∃ k ∈ exs, m ∈ k := by
      intro m
      rw [hmem, List.mem_filter, List.mem_flatten]
      simp
    refine ⟨l, hl, fun m => ?_, fun m hm => ?_, Cursor.embeds_inr.follows ?_⟩
    · rw [hmem', Listed.has hins, Listed.has hexs]
      rfl
    · obtain ⟨⟨k, hk, hmk⟩, -⟩ := (hmem' m).1 hm
      exact (Listed.all hins k hk).2 m hmk
    · refine Union.follows ?_ ?_ (Listed.all hins)
        (fun k hk => (Listed.all hexs k hk).1) hl hmem'
      · rw [List.forall₂_map_left_iff]
        exact hins.imp fun _ _ hc => hc.2.2.2
      · rw [List.forall₂_map_left_iff]
        exact hexs.imp fun _ _ hc => hc.2.2.2

/-- Whether a source that was not asked yet answers every sequence of questions
as an ascending list does. -/
def Lists (s : σ) (l : List Moment) : Prop :=
  l.Pairwise (· < ·) ∧ ∀ qs, (Cursor.idle s).replies qs = Query.repliesOf qs l

/-- **Trees of unions are cursors over their moments.** Where the leaves are
cursors over ascending lists, so is the tree, over the moments that occur in
some inclusion and in no exclusion; and a list of any dates is such a leaf. -/
theorem lists_moments {lists : σ → List Moment} {depth : Nat} {t : Tree σ depth}
    (h : ∀ s, HasLeaf s depth t → Lists s (lists s)) :
    (∃ l, (∀ m, m ∈ l ↔ Has lists m depth t) ∧ Lists (nested depth t) l) ∧
      ∀ ms : List Moment, ∃ l, (∀ m, m ∈ l ↔ m ∈ ms) ∧ Lists (DateSource.ofList ms) l := by
  constructor
  · obtain ⟨l, hl, hmem, -, hf⟩ := exists_listed (P := fun _ => True) fun s hs =>
      ⟨(h s hs).1, fun _ _ => trivial, fun qs _ => (h s hs).2 qs⟩
    exact ⟨l, hmem, hl, fun qs => hf qs fun _ _ => trivial⟩
  · intro ms
    obtain ⟨hl, hmem⟩ := DateSource.ofList_spec ms
    exact ⟨_, hmem, hl, fun qs => DateSource.follows (fun _ => True) _ qs fun _ _ => trivial⟩

/-- The tree of two lists of dates and a union of two others, which excludes
one of its dates and is an exclusion itself. -/
def sample : Tree DateSource 2 :=
  let dates (days : List Nat) : DateSource := .ofList (days.map (.onDate 2006 4))
  .inr ([.inl (dates [12, 11, 20]), .inl (dates [15, 12])],
    [.inr ([dates [12, 15]], [dates [15]])])

theorem lists_moments_sample :
    (∀ s, HasLeaf s 2 sample → Lists s s.dates) ∧
      ((∃ l, (∀ m, m ∈ l ↔ Has DateSource.dates m 2 sample) ∧ Lists (nested 2 sample) l) ∧
        ∀ ms : List Moment, ∃ l, (∀ m, m ∈ l ↔ m ∈ ms) ∧ Lists (DateSource.ofList ms) l) := by
  have h : ∀ s, HasLeaf s 2 sample → Lists s s.dates := by
    intro s hs
    have hlist (ms : List Moment) : Lists (DateSource.ofList ms) (DateSource.ofList ms).dates :=
      ⟨(DateSource.ofList_spec ms).1, fun qs =>
        DateSource.follows (fun _ => True) _ qs fun _ _ => trivial⟩
    obtain ⟨t, ht, hs⟩ | ⟨t, ht, hs⟩ := hs
    · rcases List.mem_cons.1 ht with rfl | ht
      · exact hs ▸ hlist _
      · rw [List.mem_singleton.1 ht] at hs
        exact hs ▸ hlist _
    · rw [List.mem_singleton.1 ht] at hs
      obtain ⟨t, ht, hs⟩ | ⟨t, ht, hs⟩ := hs
      · rw [List.mem_singleton.1 ht] at hs
        exact hs ▸ hlist _
      · rw [List.mem_singleton.1 ht] at hs
        exact hs ▸ hlist _
  exact ⟨h, lists_moments h⟩

end Tree

end Recurrence
