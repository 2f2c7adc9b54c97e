/-
# Instants on the command line

The command reads its start and the instant it begins at on the clocks of a zone. One
that is marked as UTC is shown on these clocks and taken for an instant again before
it is printed or passed to. So it is kept exactly when it is found again; an instant
that the clocks show for the second time is not, and becomes the first one that they
show so.

Key definitions: `Expand.PrintsStart`, `Expand.PassesTo`.
Key theorems: `Expand.instantsIn_start`, `Expand.le_of_instantsIn`, `Expand.keepsMarked_iff`.
-/
import Recurrence.Expand
import Recurrence.Proofs.Set.DateTexts
import Recurrence.Proofs.Set.Instants
import Recurrence.Proofs.Source.Union

namespace Recurrence

open Reading

/-- A set without lines has its start only. -/
theorem RecurrenceSet.follows_withStart (start : Moment) (zone : Zone) (limits : Limits) :
    (Cursor.idle (withStart [] start zone limits)).Follows (fun _ => True)
      [zone.localToUtc start] := by
  have hstart : (Cursor.idle (.inr (.ofList [zone.localToUtc start]) : LineSource)).Follows
      (fun _ => True) [zone.localToUtc start] := by
    rw [DateSource.ofList, List.mergeSort_singleton]
    exact Cursor.embeds_inr.follows (DateSource.follows _ _)
  refine Union.follows (.cons hstart .nil) .nil ?_ ?_ (List.pairwise_singleton _ _) fun m => ?_
  · simp
  · simp
  · simp

namespace Expand

/-- Whether a run whose start is a text, without lines and without an instant to begin
at, prints an instant and nothing else. -/
def PrintsStart (database : Database) (zone : Zone) (text : String) (u : Moment) : Prop :=
  ∀ (options : Options) (input : String), options.start = text → options.advanceTo = none →
    Folding.unfold input = [] → outcome (instantsIn database zone options input) =
      ⟨0, Text.joinWith ',' (([u].take options.limit).map instantText) ++ "\n", ""⟩

/-- Whether no run that begins at a text prints an instant before another one, whatever
its start and its lines are. -/
def PassesTo (database : Database) (zone : Zone) (text : String) (u : Moment) : Prop :=
  ∀ (options : Options) (input : String) (moments : List Moment),
    options.advanceTo = some text → instantsIn database zone options input = .ok moments →
      ∀ m ∈ moments, u ≤ m

variable {database : Database} {zone : Zone} {options : Options} {text input : String}
  {m u : Moment}

/-- An instant that is marked as UTC is read as what the clocks show. -/
theorem readLocal_marked (zone : Zone) (h : Moment.readMarked text = .ok (u, true)) :
    readLocal zone text = .ok (zone.utcToLocal u) := by
  rw [readLocal, h]
  rfl

theorem readIn_of_unfold {start : Moment} {limits : Limits} (h : Folding.unfold input = []) :
    RecurrenceSet.readIn database input start zone limits =
      .ok (RecurrenceSet.withStart [] start zone limits) := by
  rw [RecurrenceSet.readIn, Line.readAllIn, h]
  rfl

/-- **Without lines a run prints its start**, which is converted from the clocks, if it
does not lie before the instant that the run begins at. -/
theorem instantsIn_start (database : Database) (options : Options) (input : String)
    (hstart : readLocal zone options.start = .ok m)
    (hinput : Folding.unfold input = []) :
    (options.advanceTo = none →
      instantsIn database zone options input = .ok ([zone.localToUtc m].take options.limit)) ∧
    ∀ (begins : String) (date : Moment), options.advanceTo = some begins →
      readLocal zone begins = .ok date →
      instantsIn database zone options input = .ok
        (([zone.localToUtc m].dropWhile (· < zone.localToUtc date)).take options.limit) := by
  have hfollows := fun limits => RecurrenceSet.follows_withStart m zone limits
  constructor
  · intro hadvance
    simp only [instantsIn, hstart, readIn_of_unfold hinput, hadvance]
    exact congrArg Except.ok ((hfollows _).take options.limit)
  · intro begins date hadvance hdate
    simp only [instantsIn, hstart, readIn_of_unfold hinput, hadvance, hdate]
    exact congrArg Except.ok (((hfollows _).advanceTo trivial).take options.limit)

/-- **A run prints nothing before the instant that it begins at**, converted from the
clocks. -/
theorem le_of_instantsIn {begins : String} {date : Moment} {moments : List Moment}
    (hadvance : options.advanceTo = some begins) (hdate : readLocal zone begins = .ok date)
    (h : instantsIn database zone options input = .ok moments) :
    ∀ m ∈ moments, zone.localToUtc date ≤ m := by
  simp only [instantsIn, hadvance, hdate, bind_eq_ok, mapError_eq_ok, pure_eq_ok] at h
  obtain ⟨start, -, set, hset, date', hdate', cursor, rfl, rfl⟩ := h
  obtain rfl := Except.ok.inj hdate'
  have hrises := (RecurrenceSet.rises_of_readIn hset).advanceTo (zone.localToUtc date)
  exact fun m hm => (hrises.take options.limit m hm).2

/-- Texts of instants in years of four digits tell these apart. -/
theorem eq_of_instantText {s : Int} (hu : u.Writable) (htime : u.hasTime = true)
    (h : instantText (.ofSeconds s) = instantText u) : Moment.ofSeconds s = u := by
  have hchars : (Moment.ofSeconds s).chars = u.chars := by
    have hlists := congrArg String.toList h
    simpa [instantText, htime, show (Moment.ofSeconds s).hasTime = true from rfl,
      Moment.text] using hlists
  have hread : ∀ {m : Moment}, m.Writable → Moment.readChars m.chars = .ok (m, false) :=
    fun hm => (congrArg Moment.readChars (List.append_nil _)).symm.trans
      (Moment.readChars_chars hm false (by simp))
  have hyear := Moment.year_of_readChars ((congrArg Moment.readChars hchars).trans (hread hu))
  have hsame := (hread (Moment.writable_ofSeconds hyear)).symm.trans
    ((congrArg Moment.readChars hchars).trans (hread hu))
  exact (Prod.mk.inj (Except.ok.inj hsame)).1

/-- The options of a run that starts at a text and prints one instant. -/
def startingAt (start : String) (advanceTo : Option String) : Options :=
  { start, zone := "UTC", limit := 1, advanceTo, maxYears := 1000 }

variable {table : TransitionTable}

/-- **Which instants the command keeps.** Of the instants of a text that is marked as UTC
and does not carry, those and only those that are found again from the clocks of the
zone: as the start it is printed exactly, and as the instant to begin at none is printed
before it. -/
theorem keepsMarked_iff (hz : table.Sparse) (hread : Moment.readMarked text = .ok (u, true))
    (hplain : ¬ u.Carries) :
    (PrintsStart database table.zone text u ↔ table.Returns u) ∧
      (PassesTo database table.zone text u ↔ table.Returns u) := by
  obtain ⟨hwritable, htime⟩ := (Moment.writable_of_readChars hread).imp_right fun h => h rfl
  have hlocal := readLocal_marked table.zone hread
  obtain ⟨s, hs, hle⟩ := TransitionTable.localToUtc_utcToLocal_le hz hwritable.inReach htime hplain
  rw [← TransitionTable.localToUtc_utcToLocal_iff hz hwritable.inReach htime]
  constructor
  · constructor
    · intro hprints
      have hrun := hprints (startingAt text none) "" rfl rfl rfl
      rw [(instantsIn_start database (startingAt text none) "" hlocal rfl).1 rfl] at hrun
      have houtput := congrArg Outcome.output hrun
      rw [hs]
      refine eq_of_instantText hwritable htime (String.toList_inj.1 ?_)
      have hlists := congrArg String.toList houtput
      simpa [outcome, startingAt, Text.joinWith, Text.join, hs] using hlists
    · intro hfound options input hstart hadvance hinput
      rw [(instantsIn_start database options input (hstart ▸ hlocal) hinput).1 hadvance, hfound]
      rfl
  · constructor
    · intro hpasses
      have hrun :=
        (instantsIn_start database (startingAt text (some text)) "" hlocal rfl).2 text _ rfl hlocal
      rw [hs] at hrun ⊢
      refine hle.antisymm (hpasses _ _ _ rfl hrun _ ?_)
      simp [startingAt]
    · intro hfound options input moments hadvance hok
      have hbehind := le_of_instantsIn hadvance hlocal hok
      rwa [hfound] at hbehind

/-- An instant that the clocks of New York show as half past one for the first time. -/
theorem keepsMarked_iff_first :
    let text := "20061029T053000Z"
    let u := Moment.atTime 2006 10 29 5 30 0
    (TransitionTable.newYork.Sparse ∧ Moment.readMarked text = .ok (u, true) ∧ ¬ u.Carries) ∧
      (PrintsStart .known TransitionTable.newYork.zone text u ↔
        TransitionTable.newYork.Returns u) ∧
      (PassesTo .known TransitionTable.newYork.zone text u ↔
        TransitionTable.newYork.Returns u) := by
  have hread : Moment.readMarked "20061029T053000Z" = .ok (.atTime 2006 10 29 5 30 0, true) :=
    eq_ok_of_toOption (by decide +kernel)
  have hplain : ¬ (Moment.atTime 2006 10 29 5 30 0).Carries := by
    simp [Moment.Carries, Moment.atTime, TimeOfDay.of]
  exact ⟨⟨Line.newYork_sparse, hread, hplain⟩, keepsMarked_iff Line.newYork_sparse hread hplain⟩

/-- **An instant that the clocks show for the second time is lost.** Half past six in UTC
is half past one in New York, which is taken for half past five; this is printed, also by
a run that begins at half past six. -/
theorem not_keepsMarked_repeated :
    let text := "20061029T063000Z"
    let u := Moment.atTime 2006 10 29 6 30 0
    (TransitionTable.newYork.Sparse ∧ Moment.readMarked text = .ok (u, true) ∧ ¬ u.Carries) ∧
      run ["--dtstart", text, "--tz", "America/New_York"] "" = ⟨0, "20061029T053000Z\n", ""⟩ ∧
      run ["--dtstart", "20061029T053000Z", "--tz", "America/New_York", "--advance-to", text]
        "RDATE:20061029T063000Z" = ⟨0, "20061029T053000Z,20061029T063000Z\n", ""⟩ ∧
      ¬ PrintsStart .known TransitionTable.newYork.zone text u ∧
      ¬ PassesTo .known TransitionTable.newYork.zone text u := by
  have hread : Moment.readMarked "20061029T063000Z" = .ok (.atTime 2006 10 29 6 30 0, true) :=
    eq_ok_of_toOption (by decide +kernel)
  have hplain : ¬ (Moment.atTime 2006 10 29 6 30 0).Carries := by
    simp [Moment.Carries, Moment.atTime, TimeOfDay.of]
  have hback : TransitionTable.newYork.zone.localToUtc
      (TransitionTable.newYork.zone.utcToLocal (.atTime 2006 10 29 6 30 0)) =
        .atTime 2006 10 29 5 30 0 := by decide +kernel
  have hlocal := readLocal_marked TransitionTable.newYork.zone hread
  refine ⟨⟨Line.newYork_sparse, hread, hplain⟩, by decide +kernel, by decide +kernel,
    fun hprints => ?_, fun hpasses => ?_⟩
  · have hrun := hprints (startingAt "20061029T063000Z" none) "" rfl rfl rfl
    rw [(instantsIn_start .known (startingAt "20061029T063000Z" none) "" hlocal rfl).1 rfl,
      hback] at hrun
    exact absurd hrun (by decide +kernel)
  · have hrun := (instantsIn_start .known
      (startingAt "20061029T063000Z" (some "20061029T063000Z")) "" hlocal rfl).2 _ _ rfl hlocal
    rw [hback] at hrun
    exact absurd (hpasses _ _ _ rfl hrun (.atTime 2006 10 29 5 30 0) (by decide +kernel))
      (by decide +kernel)

end Expand

end Recurrence
