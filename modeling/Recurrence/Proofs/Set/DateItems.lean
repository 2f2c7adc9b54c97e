/-
# Items of date lists as they are written

An item of a list is a moment or a period of the declared type. Its moments can be
written when their years have four digits. What is written of the item without the
zone of a line is read as the item again; what is written of it on the clocks of a
zone is so exactly when each of its date-times is found again there, in a year of
four digits.

Key definitions: `NamedZone.Keeps`, `DateList.Item.Fits`, `DateList.Item.text`.
Key theorems: `DateList.writable_of_readItem`, `DateList.readMoment_momentText_iff`,
`DateList.readItem_text_iff`.
-/
import Recurrence.Proofs.Moment.Texts
import Recurrence.Proofs.Set.Lines
import Recurrence.Proofs.Zone.Returns

namespace Recurrence

open Calendar Reading Text ContentLine

/-- Whether a moment in UTC is found again from what the clocks of a zone show: a date
is, a date-time when it returns and its year on the clocks has four digits. -/
def NamedZone.Keeps (named : NamedZone) (m : Moment) : Prop :=
  m.hasTime = true → named.table.Returns m ∧
    0 ≤ (named.zone.utcToLocal m).date.year ∧ (named.zone.utcToLocal m).date.year ≤ 9999

namespace Moment

variable {m : Moment}

theorem Writable.inReach (h : m.Writable) : m.InReach :=
  ⟨h.valid, by have := h.year; omega, by have := h.year; omega⟩

/-- A regular moment of a year of four digits can be written, if no time follows the
midnight that ends its day. -/
theorem Regular.writable (h : m.Regular) (hy : 0 ≤ m.date.year ∧ m.date.year ≤ 9999)
    (htime : ∀ t ∈ m.time, t.hour = 24 → t.minute = 0 ∧ t.second = 0) : m.Writable := by
  refine ⟨h.resolve_right fun hout => ?_, hy, htime⟩
  rw [hasYear_of_bounds (by omega) (by omega)] at hout
  exact absurd hout.1 (by simp)

theorem writable_ofSeconds {s : Int} (hy : 0 ≤ (ofSeconds s).date.year ∧
    (ofSeconds s).date.year ≤ 9999) : (ofSeconds s).Writable :=
  (regular_ofSeconds s).writable hy fun t ht h24 => by
    have hplain := not_carries_ofSeconds s
    exact absurd ⟨t, ht, Or.inl h24⟩ hplain

end Moment

namespace DateList

variable {zone : Zone} {declared : Option ValueType}

/-! ### Moments that are read -/

/-- A moment that is read can be written if its year has four digits. -/
theorem writable_of_readMoment {text : List Char} {m : Moment} (h : readMoment zone text = .ok m)
    (hy : 0 ≤ m.date.year ∧ m.date.year ≤ 9999) : m.Writable := by
  obtain ⟨written, utc, hread, hm⟩ := readMoment_eq_ok.1 h
  obtain ⟨hwritten, -⟩ := Moment.writable_of_readChars hread
  cases utc with
  | true =>
    obtain rfl : written = m := hm
    exact hwritten
  | false =>
    obtain rfl : zone.localToUtc written = m := hm
    unfold Zone.localToUtc at hy ⊢
    split at hy <;> rename_i htime
    · rw [if_pos htime]
      cases hs : written.seconds? with
      | none => exact hwritten
      | some s =>
        rw [hs] at hy
        exact Moment.writable_ofSeconds hy
    · rw [if_neg htime]
      exact hwritten

theorem writable_of_add? {m finish : Moment} {seconds : Int} (h : m.add? seconds = some finish)
    (hy : 0 ≤ finish.date.year ∧ finish.date.year ≤ 9999) : finish.Writable := by
  unfold Moment.add? at h
  dsimp only at h
  split at h
  · split at h
    · rename_i hbounds
      obtain rfl := Option.some.inj h
      exact ⟨⟨Date.inCalendar_ofDays hbounds.2.1 hbounds.2.2, by simp⟩, hy, by simp⟩
    · exact absurd h (by simp)
  · obtain ⟨start, -, h⟩ := Option.bind_eq_some_iff.1 h
    split at h
    · obtain rfl := Option.some.inj h
      exact Moment.writable_ofSeconds hy
    · exact absurd h (by simp)

/-! ### Items -/

namespace Item

/-- The moments of an item. -/
def moments : Item → List Moment
  | moment m => [m]
  | period p => [p.start, p.finish]

/-- Whether an item is of the declared type, and the ends of a period go together. -/
def Fits (declared : Option ValueType) : Item → Prop
  | moment m => declared ≠ some .period ∧ (declared = some .date → m.hasTime = false) ∧
      (declared = some .dateTime → m.hasTime = true)
  | period p => declared = some .period ∧ p.start.hasTime = p.finish.hasTime ∧
      p.start ≤ p.finish

/-- An item as it is written in the zone of its line. -/
def text (named : Option NamedZone) : Item → String
  | moment m => momentText named m
  | period p => p.textWith (momentText named)

end Item

/-- The end of a period is read from what stands behind the slash. -/
theorem finish_of_readPeriod {text : List Char} {p : Period} (h : readPeriod zone text = .ok p) :
    p.start.hasTime = p.finish.hasTime ∧ p.start ≤ p.finish ∧
      ((∃ seconds, p.start.add? seconds = some p.finish) ∨
        ∃ finish, readMoment zone finish = .ok p.finish) := by
  have hstart := start_of_readPeriod h
  unfold readPeriod at h
  cases htext : text.dropWhile (· != '/') with
  | nil =>
    rw [htext] at h
    exact absurd h throw_ne_ok
  | cons slash finish =>
    rw [htext] at h
    obtain ⟨start, hread, hperiod⟩ := bind_eq_ok.1 h
    obtain rfl := Except.ok.inj (hread.symm.trans hstart)
    dsimp only at hperiod
    split at hperiod
    · obtain ⟨period, hmap, hp⟩ := bind_eq_ok.1 hperiod
      obtain ⟨seconds, -, rfl⟩ := map_eq_ok.1 hmap
      rw [mapError_eq_ok, Period.lasting] at hp
      split at hp
      · exact absurd hp (by simp)
      · rename_i finish hadd
        obtain ⟨htime, hle, heq⟩ := Period.between_eq_ok_iff.1 hp
        rw [heq]
        exact ⟨htime, hle, Or.inl ⟨seconds, hadd⟩⟩
    · obtain ⟨period, hmap, hp⟩ := bind_eq_ok.1 hperiod
      obtain ⟨finish, hfinish, rfl⟩ := map_eq_ok.1 hmap
      obtain ⟨htime, hle, heq⟩ := Period.between_eq_ok_iff.1 (mapError_eq_ok.1 hp)
      rw [heq]
      exact ⟨htime, hle, Or.inr ⟨_, hfinish⟩⟩

/-- An item that is read is of the declared type. -/
theorem fits_of_readItem {text : List Char} {item : Item}
    (h : readItem declared zone text = .ok item) : item.Fits declared := by
  unfold readItem at h
  split at h
  · rename_i hperiod
    obtain ⟨p, hp, rfl⟩ := map_eq_ok.1 h
    obtain ⟨htime, hle, -⟩ := finish_of_readPeriod hp
    exact ⟨hperiod, htime, hle⟩
  · rename_i hperiod
    simp only [bind_eq_ok, ite_throw_eq_ok, pure_eq_ok] at h
    obtain ⟨m, -, hdate, htime, rfl⟩ := h
    exact ⟨hperiod, by simpa using hdate, by simpa using htime⟩

/-- The moments of an item that is read can be written if their years have four
digits. -/
theorem writable_of_readItem {text : List Char} {item : Item}
    (h : readItem declared zone text = .ok item)
    (hy : ∀ m ∈ item.moments, 0 ≤ m.date.year ∧ m.date.year ≤ 9999) :
    ∀ m ∈ item.moments, m.Writable := by
  unfold readItem at h
  split at h
  · obtain ⟨p, hp, rfl⟩ := map_eq_ok.1 h
    obtain ⟨-, -, hfinish⟩ := finish_of_readPeriod hp
    simp only [Item.moments, List.forall_mem_cons, List.not_mem_nil, IsEmpty.forall_iff,
      implies_true, and_true] at hy ⊢
    refine ⟨writable_of_readMoment (start_of_readPeriod hp) hy.1, ?_⟩
    rcases hfinish with ⟨seconds, hadd⟩ | ⟨finish, hread⟩
    · exact writable_of_add? hadd hy.2
    · exact writable_of_readMoment hread hy.2
  · simp only [bind_eq_ok, ite_throw_eq_ok, pure_eq_ok] at h
    obtain ⟨m, hm, -, -, rfl⟩ := h
    rw [Item.moments, List.forall_mem_singleton] at hy ⊢
    exact writable_of_readMoment hm hy

/-! ### Reading what is written -/

variable {named : Option NamedZone} {m : Moment}

/-- What is written of a moment is a token. -/
theorem isToken_momentText (named : Option NamedZone) (m : Moment) :
    IsToken (momentText named m).toList := by
  unfold momentText
  split
  · split
    · exact String.toList_ofList ▸ Moment.isToken_chars _
    · rw [String.toList_append, Moment.text, String.toList_ofList]
      exact Moment.isToken_marked m true
  · exact String.toList_ofList ▸ Moment.isToken_chars _

theorem momentText_none (h : m.Writable) : readMoment zone (momentText none m).toList = .ok m := by
  rw [readMoment_eq_ok, String.ofList_toList]
  unfold momentText
  cases ht : m.hasTime with
  | true =>
    refine ⟨m, true, ?_, rfl⟩
    have hread := Moment.readMarked_text h true fun _ => ht
    rwa [String.ofList_append] at hread
  | false =>
    refine ⟨m, false, ?_, Zone.localToUtc_of_date ht⟩
    have hread := Moment.readMarked_text h false (by simp)
    rwa [show m.chars ++ Moment.mark false = m.chars from List.append_nil _] at hread

/-- What is written of a moment on the clocks of a zone is read as the moment when it is
found again. -/
theorem momentText_some (h : m.Writable) {named : NamedZone} (hz : named.table.Sparse) :
    readMoment named.zone (momentText (some named) m).toList = .ok m ↔ named.Keeps m := by
  cases ht : m.hasTime with
  | false =>
    have hsame : momentText (some named) m = momentText none m := by
      simp only [momentText, ht, Bool.false_eq_true, if_false]
    rw [hsame]
    exact iff_of_true (momentText_none h) fun htrue => absurd htrue (by simp [ht])
  | true =>
    have hreach := h.inReach
    obtain ⟨hlocal, -⟩ := hz.utcToLocal_eq hreach ht (Moment.seconds_of_inReach hreach)
    have hback := TransitionTable.localToUtc_utcToLocal_iff hz hreach ht
    have htext : (momentText (some named) m).toList = (named.zone.utcToLocal m).chars := by
      simp only [momentText, ht, if_true, Moment.text, String.toList_ofList]
    -- the clocks show a date-time, which is read again unless its year is too long
    have hread : (0 ≤ (named.zone.utcToLocal m).date.year ∧
          (named.zone.utcToLocal m).date.year ≤ 9999) →
        Moment.readChars (named.zone.utcToLocal m).chars =
          .ok (named.zone.utcToLocal m, false) := by
      intro hy
      have hwritable : (named.zone.utcToLocal m).Writable := by
        rw [NamedZone.zone, hlocal] at hy ⊢
        exact Moment.writable_ofSeconds hy
      exact (congrArg Moment.readChars (List.append_nil _)).symm.trans
        (Moment.readChars_chars hwritable false (by simp))
    constructor
    · intro hok _
      obtain ⟨written, utc, hwritten, hm⟩ := readMoment_eq_ok.1 hok
      rw [htext, Moment.readMarked, String.toList_ofList, (Moment.isToken_chars _).trim]
        at hwritten
      have hy : 0 ≤ (named.zone.utcToLocal m).date.year ∧
          (named.zone.utcToLocal m).date.year ≤ 9999 := by
        rw [NamedZone.zone, hlocal] at hwritten ⊢
        exact Moment.year_of_readChars hwritten
      obtain ⟨rfl, rfl⟩ := Prod.mk.inj (Except.ok.inj ((hread hy).symm.trans hwritten))
      exact ⟨hback.1 hm, hy⟩
    · intro hkeeps
      obtain ⟨hreturns, hy⟩ := hkeeps ht
      refine readMoment_eq_ok.2 ⟨named.zone.utcToLocal m, false, ?_, hback.2 hreturns⟩
      rw [htext, Moment.readMarked, String.toList_ofList, (Moment.isToken_chars _).trim, hread hy]

/-- **When what is written of a moment is read as the moment again.** -/
theorem readMoment_momentText_iff (h : m.Writable) (hz : ∀ n ∈ named, n.table.Sparse) :
    readMoment ((named.map NamedZone.zone).getD zone) (momentText named m).toList = .ok m ↔
      ∀ n ∈ named, n.Keeps m := by
  cases named with
  | none => exact iff_of_true (momentText_none h) (by simp)
  | some n => simpa using momentText_some h (hz n rfl)

/-! ### Periods -/

/-- Every length of time is written with a letter P. -/
theorem mem_of_readDuration {text : String} {n : Int} (h : Duration.read text = .ok n) :
    'P' ∈ upperChars (trimChars text.toList) := by
  have hsign : ∀ text : List Char, (Duration.splitSign text).2 ⊆ text := by
    intro text
    unfold Duration.splitSign
    split <;> simp
  unfold Duration.read at h
  split at h
  · rename_i heq
    exact hsign _ (by rw [heq]; exact List.mem_cons_self)
  · exact absurd h (by simp)

/-- What begins a moment that is read is a digit. -/
theorem isDigit_of_readMoment {c : Char} {rest : List Char} (htoken : IsToken (c :: rest))
    {m : Moment} (h : readMoment zone (c :: rest) = .ok m) : c.isDigit = true := by
  obtain ⟨written, utc, hread, -⟩ := readMoment_eq_ok.1 h
  rw [Moment.readMarked, String.toList_ofList, htoken.trim] at hread
  obtain ⟨-, timed, marked, -, year, hyear, -⟩ := Moment.readChars_eq_ok_iff.1 hread
  exact Moment.isDigit_of_digitsAt rfl hyear

/-- A period is read from the texts of its ends, which hold no letter P. -/
theorem readPeriod_iff {start finish : List Char} (hstart : IsToken start)
    (hfinish : IsToken finish) (hnoP : ∀ c ∈ finish, c.toUpper ≠ 'P') {p : Period}
    (hp : p.start.hasTime = p.finish.hasTime ∧ p.start ≤ p.finish) :
    readPeriod zone (start ++ '/' :: finish) = .ok p ↔
      readMoment zone start = .ok p.start ∧ readMoment zone finish = .ok p.finish := by
  have hslash : '/' ∉ start := hstart.not_mem (by decide)
  obtain ⟨c, rest, rfl⟩ := List.exists_cons_of_ne_nil hfinish.ne_nil
  simp only [readPeriod, dropWhile_bne_append hslash, takeWhile_bne_append hslash,
    List.head?_cons, Option.any_some]
  by_cases hlength : (c == 'P' || c == 'p' || c == '+' || c == '-') = true
  · simp only [hlength, if_true]
    -- only a minus sign is left, with which neither a length nor a moment begins
    have hc : c = '-' := by
      simp only [Bool.or_eq_true, beq_iff_eq] at hlength
      rcases hlength with ((rfl | rfl) | rfl) | rfl
      · exact absurd (hnoP _ List.mem_cons_self) (by decide)
      · exact absurd (hnoP _ List.mem_cons_self) (by decide)
      · exact absurd (hfinish.chars _ List.mem_cons_self) (by decide)
      · rfl
    subst hc
    constructor
    · intro h
      obtain ⟨start', -, h⟩ := bind_eq_ok.1 h
      obtain ⟨period, hmap, -⟩ := bind_eq_ok.1 h
      obtain ⟨seconds, hread, -⟩ := map_eq_ok.1 hmap
      have hmem := mem_of_readDuration hread
      rw [String.toList_ofList, hfinish.trim] at hmem
      obtain ⟨c, hc, hupper⟩ := List.mem_map.1 hmem
      exact absurd hupper (hnoP c hc)
    · rintro ⟨-, hread⟩
      exact absurd (isDigit_of_readMoment hfinish hread) (by decide)
  · simp only [hlength, Bool.false_eq_true, if_false]
    constructor
    · intro h
      obtain ⟨start', hread, h⟩ := bind_eq_ok.1 h
      obtain ⟨period, hmap, hperiod⟩ := bind_eq_ok.1 h
      obtain ⟨finish', hread', rfl⟩ := map_eq_ok.1 hmap
      obtain ⟨-, -, rfl⟩ := Period.between_eq_ok_iff.1 (mapError_eq_ok.1 hperiod)
      exact ⟨hread, hread'⟩
    · rintro ⟨hread, hread'⟩
      refine bind_eq_ok.2 ⟨p.start, hread, bind_eq_ok.2 ⟨_, map_eq_ok.2 ⟨_, hread', rfl⟩, ?_⟩⟩
      exact mapError_eq_ok.2 (Period.between_eq_ok_iff.2 ⟨hp.1, hp.2, rfl⟩)

/-- What is written of a moment holds no letter P. -/
theorem toUpper_ne_of_mem_momentText {c : Char} (h : c ∈ (momentText named m).toList) :
    c.toUpper ≠ 'P' := by
  have hplain : ∀ {m : Moment}, c ∈ m.chars → c.toUpper ≠ 'P' := by
    intro m hc
    rcases Moment.of_mem_chars hc with hdigit | rfl | rfl
    · rw [toUpper_eq_self (Or.inr (Or.inl hdigit))]
      rintro rfl
      exact absurd hdigit (by decide)
    · decide
    · decide
  unfold momentText at h
  split at h
  · split at h
    · exact hplain (String.toList_ofList ▸ h)
    · rw [String.toList_append, Moment.text, String.toList_ofList, List.mem_append] at h
      rcases h with h | h
      · exact hplain h
      · obtain rfl := List.mem_singleton.1 h
        decide
  · exact hplain (String.toList_ofList ▸ h)

/-- **When what is written of an item is read as the item again.** -/
theorem readItem_text_iff {item : Item} (hfits : item.Fits declared)
    (hwritable : ∀ m ∈ item.moments, m.Writable) (hz : ∀ n ∈ named, n.table.Sparse) :
    readItem declared ((named.map NamedZone.zone).getD zone) (item.text named).toList = .ok item ↔
      ∀ m ∈ item.moments, ∀ n ∈ named, n.Keeps m := by
  cases item with
  | moment m =>
    obtain ⟨hperiod, hdate, htime⟩ := hfits
    rw [Item.moments, List.forall_mem_singleton] at hwritable ⊢
    rw [← readMoment_momentText_iff hwritable hz, readItem, if_neg hperiod]
    simp only [bind_eq_ok, ite_throw_eq_ok, pure_eq_ok]
    constructor
    · rintro ⟨m', hread, -, -, heq⟩
      obtain rfl := Item.moment.inj heq
      exact hread
    · intro hread
      exact ⟨m, hread, fun h => absurd h.2 (by simp [hdate h.1]), fun h => h.2 (htime h.1), rfl⟩
  | period p =>
    obtain ⟨hperiod, hends⟩ := hfits
    simp only [Item.moments, List.forall_mem_cons, List.not_mem_nil, IsEmpty.forall_iff,
      implies_true, and_true] at hwritable ⊢
    rw [← @readMoment_momentText_iff zone _ _ hwritable.1 hz,
      ← @readMoment_momentText_iff zone _ _ hwritable.2 hz, readItem, if_pos hperiod, map_eq_ok]
    have htext : (Item.text named (.period p)).toList = (momentText named p.start).toList ++
        '/' :: (momentText named p.finish).toList := by
      simp [Item.text, Period.textWith]
    rw [htext, ← readPeriod_iff (isToken_momentText _ _) (isToken_momentText _ _)
      (fun _ => toUpper_ne_of_mem_momentText) hends]
    constructor
    · rintro ⟨p', hread, heq⟩
      obtain rfl := Item.period.inj heq
      exact hread
    · exact fun hread => ⟨p, hread, rfl⟩

end DateList

end Recurrence
