/-
# How durations are written

A duration is a sign or none, the letter P and parts, each a number of one unit: weeks and
days first, then, behind the letter T, hours, minutes and seconds. A text is read as a
duration exactly when its capitals are written so and the parts add up to no more seconds
than a duration may have; the parts are told apart by their letters, so a text has one
meaning.

The grammar of durations asks for more: it names the units of each half from the longest to
the shortest, each at most once, and a letter T must be followed by a part. Nothing of this
is asked by the reader, which keeps no count of the units that it has passed. So a text is
read as the grammar says exactly when it is not one of those that only lack this order.

While the characters are read, what has been read is always some parts and some digits
behind them (`Tracks`): this is the invariant that carries the reading.

Key definitions: `Duration.Part`, `Duration.Layout`, `Duration.Spells`,
`Duration.Layout.Ordered`, `Duration.FollowsGrammar`, `Duration.Tracks`.
Key theorems: `Duration.cases_of_step`, `Duration.Tracks.step`, `Duration.foldlM_parts`,
`Duration.read_eq_ok_iff`, `Duration.Spells.unique`, `Duration.followsGrammar_iff`,
`Duration.not_followsGrammar_unordered`.
-/
import Recurrence.Duration
import Recurrence.Proofs.Reading
import Recurrence.Proofs.Text.Numerals

namespace Recurrence.Duration

open Reading Text

/-! ### Units and parts -/

/-- The units of durations. -/
inductive TimeUnit
  | week
  | day
  | hour
  | minute
  | second
  deriving DecidableEq

namespace TimeUnit

/-- The letter behind a number of the unit. -/
def letter : TimeUnit → Char
  | week => 'W'
  | day => 'D'
  | hour => 'H'
  | minute => 'M'
  | second => 'S'

/-- The seconds of the unit. -/
def seconds : TimeUnit → Nat
  | week => 7 * 24 * 60 * 60
  | day => 24 * 60 * 60
  | hour => 60 * 60
  | minute => 60
  | second => 1

/-- Whether the unit stands behind the letter T. -/
def inClock : TimeUnit → Bool
  | week | day => false
  | hour | minute | second => true

theorem letter_injective : Function.Injective letter := by
  intro u v h
  cases u <;> cases v <;> first | rfl | exact absurd h (by decide)

theorem letter_not_digit (u : TimeUnit) : u.letter.isDigit = false := by
  cases u <;> rfl

theorem letter_ne_T (u : TimeUnit) : u.letter ≠ 'T' := by
  cases u <;> decide

theorem one_le_seconds (u : TimeUnit) : 1 ≤ u.seconds := by
  cases u <;> decide

end TimeUnit

theorem isUnit_iff {c : Char} : isUnit c = true ↔ ∃ u : TimeUnit, u.letter = c := by
  constructor
  · intro h
    simp only [isUnit, Bool.or_eq_true, beq_iff_eq] at h
    rcases h with (((rfl | rfl) | rfl) | rfl) | rfl
    exacts [⟨.week, rfl⟩, ⟨.day, rfl⟩, ⟨.hour, rfl⟩, ⟨.minute, rfl⟩, ⟨.second, rfl⟩]
  · rintro ⟨u, rfl⟩
    cases u <;> rfl

/-- A letter stands for a unit in its half of a duration only. -/
theorem unitSeconds?_letter (u : TimeUnit) (inTime : Bool) :
    unitSeconds? inTime u.letter = if u.inClock = inTime then some u.seconds else none := by
  cases u <;> cases inTime <;> rfl

/-- A number of one unit, in digits. -/
@[ext]
structure Part where
  digits : List Char
  unit : TimeUnit
  ne_nil : digits ≠ []
  isDigit : ∀ c ∈ digits, c.isDigit = true

namespace Part

/-- The number of units. -/
def number (p : Part) : Nat :=
  Decimal.value p.digits

/-- The seconds of the part. -/
def seconds (p : Part) : Nat :=
  p.number * p.unit.seconds

/-- The part as it is written: its digits and the letter of its unit. -/
def chars (p : Part) : List Char :=
  p.digits ++ [p.unit.letter]

end Part

/-- The seconds of some parts. -/
def total : List Part → Nat
  | [] => 0
  | p :: ps => p.seconds + total ps

/-- Some parts as they are written, one behind the other. -/
def partsChars (ps : List Part) : List Char :=
  ps.flatMap Part.chars

/-- The parts of a duration: weeks and days, and behind the letter T, if there is one,
hours, minutes and seconds. -/
structure Layout where
  days : List Part
  clock : Option (List Part)
  days_unit : ∀ p ∈ days, p.unit.inClock = false
  clock_unit : ∀ ps ∈ clock, ∀ p ∈ ps, p.unit.inClock = true

namespace Layout

/-- All parts, in the order in which they stand. -/
def parts (l : Layout) : List Part :=
  l.days ++ l.clock.getD []

/-- The seconds of the duration, but for its sign. -/
def seconds (l : Layout) : Nat :=
  total l.parts

/-- The parts and the letter T as they are written. -/
def chars (l : Layout) : List Char :=
  partsChars l.days ++ match l.clock with
    | none => []
    | some ps => 'T' :: partsChars ps

/-- Whether the units of each half come from the longest to the shortest, each at most
once, and a letter T is followed by a part. -/
structure Ordered (l : Layout) : Prop where
  days : (l.days.map Part.unit).Sublist [.week, .day]
  clock : ∀ ps ∈ l.clock, ps ≠ [] ∧ (ps.map Part.unit).Sublist [.hour, .minute, .second]

end Layout

/-- What the sign of a duration is, and how it is written. -/
inductive SignText : List Char → Int → Prop
  | none : SignText [] 1
  | plus : SignText ['+'] 1
  | minus : SignText ['-'] (-1)

/-- Whether a text is a duration of so many seconds: a sign or none, the letter P and parts,
at least one, that add up to no more seconds than a duration may have. -/
structure Spells (text : List Char) (l : Layout) (seconds : Int) : Prop where
  nonempty : l.parts ≠ []
  bounded : l.seconds ≤ maxSeconds
  written : ∃ sign value, SignText sign value ∧ text = sign ++ 'P' :: l.chars ∧
    seconds = value * l.seconds

/-- The text without the blanks around it, in capitals. -/
def capitals (text : String) : List Char :=
  upperChars (trimChars text.toList)

/-- Whether a text is read exactly when the grammar has it, as the signed sum of its
parts. -/
def FollowsGrammar (text : String) : Prop :=
  ∀ seconds, read text = .ok seconds ↔ ∃ l, Spells (capitals text) l seconds ∧ l.Ordered

variable {text : String} {chars rest rest' : List Char} {c : Char} {p p' : Progress}
  {ps qs : List Part} {l l' : Layout}

/-! ### One character -/

theorem step_digit (h : c.isDigit = true) : step text p c =
    .ok { p with number := some (10 * p.number.getD 0 + Decimal.digit c) } :=
  if_pos h

theorem step_T : step text p 'T' = .ok p' ↔
    p.inTime = false ∧ p.number = none ∧ p' = { p with inTime := true } := by
  have hstep : step text p 'T' = if p.inTime = false ∧ p.number = none then
      .ok { p with inTime := true } else .error (.duration text) := by
    unfold step
    obtain ⟨seconds, inTime, number, sawUnit⟩ := p
    cases inTime <;> cases number <;> rfl
  rw [hstep]
  split
  · rename_i h
    rw [Except.ok.injEq, and_iff_right h.1, and_iff_right h.2, eq_comm]
  · rename_i h
    exact iff_of_false (by simp) fun h' => h ⟨h'.1, h'.2.1⟩

/-- A number that is too large to be read is too long in any unit. -/
theorem le_maxNumber {u : TimeUnit} {seconds n : Nat}
    (h : seconds + n * u.seconds ≤ maxSeconds) : n ≤ maxNumber := by
  have := Nat.le_mul_of_pos_right n u.one_le_seconds
  unfold maxSeconds at h
  unfold maxNumber
  omega

theorem step_letter (u : TimeUnit) : step text p u.letter = .ok p' ↔
    ∃ n, u.inClock = p.inTime ∧ p.number = some n ∧ p.seconds + n * u.seconds ≤ maxSeconds ∧
      p' = ⟨p.seconds + n * u.seconds, p.inTime, none, true⟩ := by
  unfold step
  rw [if_neg (by simp [u.letter_not_digit]), if_neg (by simp [u.letter_ne_T]),
    if_pos (isUnit_iff.2 ⟨u, rfl⟩), unitSeconds?_letter]
  cases p.number with
  | none => simp
  | some n =>
    rw [Option.filter_some]
    simp only [decide_eq_true_eq, Option.some.injEq, exists_and_left, exists_eq_left']
    by_cases hhalf : u.inClock = p.inTime
    · by_cases hbound : p.seconds + n * u.seconds ≤ maxSeconds
      · simp [le_maxNumber hbound, hhalf, hbound, eq_comm]
      · by_cases hn : n ≤ maxNumber <;> simp [hn, hhalf, hbound]
    · by_cases hn : n ≤ maxNumber <;> simp [hn, hhalf]

theorem not_step_other (hdigit : c.isDigit = false) (hT : c ≠ 'T')
    (hunit : ∀ u : TimeUnit, u.letter ≠ c) : step text p c ≠ .ok p' := by
  have hnone : isUnit c = false := by
    rw [← Bool.not_eq_true, isUnit_iff]
    exact fun ⟨u, hu⟩ => hunit u hu
  unfold step
  simp [hdigit, hT, hnone]

/-- **What one more character does**: a digit joins the number, a letter T begins the second
half where no number has begun, and the letter of a unit of the half ends the number as long
as the seconds stay within their bound. -/
theorem cases_of_step (h : step text p c = .ok p') :
    (c.isDigit = true ∧
        p' = { p with number := some (10 * p.number.getD 0 + Decimal.digit c) }) ∨
      (c = 'T' ∧ p.inTime = false ∧ p.number = none ∧ p' = { p with inTime := true }) ∨
      ∃ (u : TimeUnit) (n : Nat), c = u.letter ∧ u.inClock = p.inTime ∧ p.number = some n ∧
        p.seconds + n * u.seconds ≤ maxSeconds ∧
        p' = ⟨p.seconds + n * u.seconds, p.inTime, none, true⟩ := by
  by_cases hdigit : c.isDigit = true
  · rw [step_digit hdigit] at h
    exact Or.inl ⟨hdigit, (Except.ok.inj h).symm⟩
  by_cases hT : c = 'T'
  · subst hT
    exact Or.inr (Or.inl ⟨rfl, step_T.1 h⟩)
  by_cases hunit : ∃ u : TimeUnit, u.letter = c
  · obtain ⟨u, rfl⟩ := hunit
    obtain ⟨n, hn⟩ := (step_letter u).1 h
    exact Or.inr (Or.inr ⟨u, n, rfl, hn⟩)
  · exact absurd h (not_step_other (Bool.not_eq_true _ ▸ hdigit) hT fun u hu => hunit ⟨u, hu⟩)

/-! ### What has been read -/

/-- One more part at the end of a layout, in the half that it has reached. -/
def Layout.push (l : Layout) (part : Part) (h : part.unit.inClock = l.clock.isSome) : Layout :=
  match hclock : l.clock with
  | none => ⟨l.days ++ [part], none, by
      simp only [List.mem_append, List.mem_singleton]
      rintro q (hq | rfl)
      · exact l.days_unit q hq
      · rw [h, hclock]
        rfl, by simp⟩
  | some ps => ⟨l.days, some (ps ++ [part]), l.days_unit, by
      simp only [Option.mem_def, Option.some.injEq]
      rintro _ rfl q hq
      rcases List.mem_append.1 hq with hq | hq
      · exact l.clock_unit ps hclock q hq
      · rw [List.mem_singleton.1 hq, h, hclock]
        rfl⟩

theorem total_append (ps qs : List Part) : total (ps ++ qs) = total ps + total qs := by
  induction ps with
  | nil => rw [total, List.nil_append, Nat.zero_add]
  | cons part ps ih => rw [List.cons_append, total, ih, total, Nat.add_assoc]

theorem total_singleton (part : Part) : total [part] = part.seconds :=
  Nat.add_zero _

theorem partsChars_cons (part : Part) (ps : List Part) :
    partsChars (part :: ps) = part.digits ++ part.unit.letter :: partsChars ps := by
  rw [partsChars, List.flatMap_cons, Part.chars, List.append_assoc]
  rfl

theorem Layout.push_spec (part : Part) (h : part.unit.inClock = l.clock.isSome) :
    (l.push part h).parts = l.parts ++ [part] ∧ (l.push part h).chars = l.chars ++ part.chars ∧
      (l.push part h).clock.isSome = l.clock.isSome := by
  obtain ⟨days, clock, hdays, hclock⟩ := l
  cases clock with
  | none => simp [Layout.push, Layout.parts, Layout.chars, partsChars]
  | some ps => simp [Layout.push, Layout.parts, Layout.chars, partsChars]

/-- The layout with the letter T behind it, and no part yet behind that. -/
def Layout.openClock (l : Layout) : Layout :=
  ⟨l.days, some [], l.days_unit, by simp⟩

theorem Layout.openClock_spec (h : l.clock = none) :
    l.openClock.parts = l.parts ∧ l.openClock.chars = l.chars ++ ['T'] := by
  constructor
  · rw [Layout.parts, Layout.parts, h]
    rfl
  · rw [Layout.chars, Layout.chars, h, List.append_nil]
    rfl

/-- Whether the state of the reading is that after some parts and some digits behind
them. -/
structure Tracks (chars : List Char) (l : Layout) (pending : List Char) (p : Progress) :
    Prop where
  text : chars = l.chars ++ pending
  isDigit : ∀ c ∈ pending, c.isDigit = true
  number : p.number = if pending = [] then none else some (Decimal.value pending)
  half : p.inTime = l.clock.isSome
  seconds : p.seconds = l.seconds
  bounded : l.seconds ≤ maxSeconds
  sawUnit : p.sawUnit = true ↔ l.parts ≠ []

variable {pending : List Char}

/-- The digits behind the parts stand for a number, be it 0 where there are none. -/
theorem number_getD (pending : List Char) :
    (if pending = [] then none else some (Decimal.value pending)).getD 0 =
      Decimal.value pending := by
  split
  · rename_i hnil
    rw [hnil]
    rfl
  · rfl

/-- Before the first character there is nothing. -/
theorem tracks_start : Tracks [] ⟨[], none, by simp, by simp⟩ [] ⟨0, false, none, false⟩ :=
  ⟨rfl, by simp, rfl, rfl, rfl, Nat.zero_le _, by simp [Layout.parts]⟩

/-- **Each character that is read keeps to this.** -/
theorem Tracks.step (h : Tracks chars l pending p) (hstep : Duration.step text p c = .ok p') :
    ∃ l' pending', Tracks (chars ++ [c]) l' pending' p' := by
  obtain ⟨rfl, hdigits, hnumber, hhalf, hseconds, hbounded, hsaw⟩ := h
  rcases cases_of_step hstep with
    ⟨hdigit, rfl⟩ | ⟨rfl, hfirst, hnone, rfl⟩ | ⟨u, n, rfl, hunit, hsome, hbound, rfl⟩
  · refine ⟨l, pending ++ [c], List.append_assoc _ _ _, ?_, ?_, hhalf, hseconds, hbounded, hsaw⟩
    · intro d hd
      rcases List.mem_append.1 hd with hd | hd
      · exact hdigits d hd
      · rwa [List.mem_singleton.1 hd]
    · rw [if_neg (by simp), Decimal.value_append_singleton, hnumber, number_getD]
  · have hpending : pending = [] := by
      by_contra hne
      rw [hnumber, if_neg hne] at hnone
      exact absurd hnone (by simp)
    have hclock : l.clock = none := by
      rw [← Option.isNone_iff_eq_none, ← Option.isSome_eq_false_iff, ← hhalf, hfirst]
    obtain ⟨hparts, hchars⟩ := Layout.openClock_spec hclock
    have htotal : l.openClock.seconds = l.seconds := congrArg total hparts
    subst hpending
    refine ⟨l.openClock, [], ?_, by simp, hnone, rfl, ?_, ?_, ?_⟩
    · rw [hchars, List.append_nil, List.append_nil]
    · rwa [htotal]
    · rwa [htotal]
    · rwa [hparts]
  · rw [hnumber, Option.ite_none_left_eq_some, Option.some.injEq] at hsome
    obtain ⟨hne, rfl⟩ := hsome
    have hpart : u.inClock = l.clock.isSome := hunit.trans hhalf
    obtain ⟨hparts, hchars, hclock⟩ := Layout.push_spec ⟨pending, u, hne, hdigits⟩ hpart
    have htotal : (l.push ⟨pending, u, hne, hdigits⟩ hpart).seconds =
        p.seconds + Decimal.value pending * u.seconds := by
      rw [Layout.seconds, hparts, total_append, hseconds, Layout.seconds, total_singleton]
      rfl
    refine ⟨_, [], ?_, by simp, rfl, ?_, htotal.symm, htotal ▸ hbound, ?_⟩
    · rw [hchars, Part.chars, List.append_nil, List.append_assoc]
    · rw [hclock, ← hhalf]
    · simp [hparts]

/-- **The whole reading keeps to this.** -/
theorem Tracks.run {last : Progress} (h : Tracks chars l pending p)
    (hrun : rest.foldlM (Duration.step text) p = .ok last) :
    ∃ l' pending', Tracks (chars ++ rest) l' pending' last := by
  induction rest generalizing chars l pending p with
  | nil =>
    obtain rfl := pure_eq_ok.1 hrun
    exact ⟨l, pending, by rwa [List.append_nil]⟩
  | cons c rest ih =>
    rw [List.foldlM_cons, bind_eq_ok] at hrun
    obtain ⟨p', hstep, hrun⟩ := hrun
    obtain ⟨l', pending', h'⟩ := h.step hstep
    rw [List.append_cons]
    exact ih h' hrun

/-! ### What is written is read -/

/-- Digits gather. -/
theorem foldlM_digits {digits : List Char} (h : ∀ c ∈ digits, c.isDigit = true)
    (hp : p.number = none) : digits.foldlM (step text) p =
      .ok { p with number := if digits = [] then none else some (Decimal.value digits) } := by
  induction digits using List.reverseRecOn with
  | nil =>
    obtain ⟨seconds, inTime, number, sawUnit⟩ := p
    obtain rfl : number = none := hp
    rfl
  | append_singleton digits c ih =>
    simp only [List.mem_append, List.mem_singleton, or_imp, forall_and, forall_eq] at h
    have hstep : step text
        { p with number := if digits = [] then none else some (Decimal.value digits) } c =
        .ok { p with number := some (Decimal.value (digits ++ [c])) } := by
      rw [step_digit h.2, number_getD, Decimal.value_append_singleton]
    rw [List.foldlM_append, ih h.1, if_neg (show digits ++ [c] ≠ [] by simp)]
    show List.foldlM (step text) _ [c] = _
    rw [List.foldlM_cons, hstep]
    rfl

/-- **Parts of a half are read one after the other**, as long as their seconds stay within
the bound. -/
theorem foldlM_parts (hunits : ∀ q ∈ ps, q.unit.inClock = p.inTime) (hp : p.number = none)
    (hbound : p.seconds + total ps ≤ maxSeconds) :
    (partsChars ps ++ rest).foldlM (step text) p =
      rest.foldlM (step text) ⟨p.seconds + total ps, p.inTime, none,
        p.sawUnit || !ps.isEmpty⟩ := by
  induction ps generalizing p with
  | nil =>
    obtain ⟨seconds, inTime, number, sawUnit⟩ := p
    obtain rfl : number = none := hp
    simp [partsChars, total]
  | cons part ps ih =>
    rw [List.forall_mem_cons] at hunits
    rw [total] at hbound
    have hfits : p.seconds + part.seconds ≤ maxSeconds := by omega
    have hstep : step text { p with number := some part.number } part.unit.letter =
        .ok ⟨p.seconds + part.seconds, p.inTime, none, true⟩ :=
      (step_letter part.unit).2 ⟨part.number, hunits.1, rfl, hfits, rfl⟩
    have hrest := @ih ⟨p.seconds + part.seconds, p.inTime, none, true⟩ hunits.2 rfl
      (by simp only; omega)
    rw [partsChars_cons, List.append_assoc, List.cons_append, List.foldlM_append,
      foldlM_digits part.isDigit hp, if_neg part.ne_nil]
    show List.foldlM (step text) _ _ = _
    rw [List.foldlM_cons, ← Part.number, hstep]
    refine hrest.trans ?_
    rw [total, Nat.add_assoc]
    simp

/-- A layout is read to its end. -/
theorem foldlM_layout (text : String) (hbound : l.seconds ≤ maxSeconds) :
    ∃ inTime, l.chars.foldlM (step text) ⟨0, false, none, false⟩ =
      .ok ⟨l.seconds, inTime, none, !l.parts.isEmpty⟩ := by
  obtain ⟨days, clock, hdays, hclock⟩ := l
  cases clock with
  | none =>
    have hsum : 0 + total days ≤ maxSeconds := by
      simpa [Layout.seconds, Layout.parts] using hbound
    refine ⟨false, ?_⟩
    rw [Layout.chars, foldlM_parts hdays rfl hsum]
    simp [Layout.seconds, Layout.parts, pure, Except.pure]
  | some ps =>
    have hsum : total days + total ps ≤ maxSeconds := by
      simpa [Layout.seconds, Layout.parts, total_append] using hbound
    have hstep : step text ⟨0 + total days, false, none, false || !days.isEmpty⟩ 'T' =
        .ok ⟨0 + total days, true, none, false || !days.isEmpty⟩ :=
      step_T.2 ⟨rfl, rfl, rfl⟩
    refine ⟨true, ?_⟩
    rw [Layout.chars, foldlM_parts hdays rfl (by simp only; omega), List.foldlM_cons, hstep]
    show List.foldlM (step text) _ _ = _
    rw [← List.append_nil (partsChars ps),
      foldlM_parts (fun q hq => hclock ps rfl q hq) rfl (by simp only; omega)]
    have hsaw : (false || !days.isEmpty || !ps.isEmpty) = !(days ++ ps).isEmpty := by
      cases days <;> rfl
    rw [hsaw, Nat.zero_add, ← total_append]
    rfl

/-! ### The whole text -/

theorem splitSign_eq_iff {value : Int} : splitSign chars = (value, 'P' :: rest) ↔
    ∃ sign, SignText sign value ∧ chars = sign ++ 'P' :: rest := by
  constructor
  · intro h
    unfold splitSign at h
    split at h <;> obtain ⟨rfl, rfl⟩ := Prod.mk.inj h
    · exact ⟨['-'], .minus, rfl⟩
    · exact ⟨['+'], .plus, rfl⟩
    · exact ⟨[], .none, rfl⟩
  · rintro ⟨sign, h | h | h, rfl⟩ <;> rfl

/-- What stands behind the letter P is never empty. -/
theorem chars_ne_nil (h : l.parts ≠ []) : l.chars ≠ [] := by
  obtain ⟨days, clock, hdays, hclock⟩ := l
  cases clock with
  | some ps => simp [Layout.chars]
  | none =>
    cases days with
    | nil => exact absurd rfl h
    | cons part days => simp [Layout.chars, partsChars_cons]

/-- **Which texts are read as durations**: those whose capitals are spelled by parts. -/
theorem read_eq_ok_iff {seconds : Int} :
    read text = .ok seconds ↔ ∃ l, Spells (capitals text) l seconds := by
  unfold read
  rw [← capitals]
  constructor
  · intro h
    split at h
    · rename_i value c rest hsplit
      obtain ⟨last, hrun, hlast⟩ := bind_eq_ok.1 h
      split at hlast
      · rename_i hdone
        obtain rfl := Except.ok.inj hlast
        obtain ⟨l, pending, htext, -, hnumber, -, hseconds, hbounded, hsaw⟩ :=
          tracks_start.run hrun
        -- no number is left unfinished
        have hpending : pending = [] := by
          by_contra hne
          rw [hdone.1, if_neg hne] at hnumber
          exact absurd hnumber (by simp)
        obtain ⟨sign, hsign, hcapitals⟩ := splitSign_eq_iff.1 hsplit
        refine ⟨l, hsaw.1 hdone.2, hbounded, sign, value, hsign, ?_, by rw [hseconds]⟩
        rw [hcapitals, ← List.nil_append (c :: rest), htext, hpending, List.append_nil]
      · exact absurd hlast (by simp)
    · exact absurd h (by simp)
  · rintro ⟨l, hnonempty, hbounded, sign, value, hsign, htext, rfl⟩
    obtain ⟨c, rest, hchars⟩ := List.exists_cons_of_ne_nil (chars_ne_nil hnonempty)
    obtain ⟨inTime, hrun⟩ := foldlM_layout text hbounded
    rw [hchars] at htext hrun
    rw [splitSign_eq_iff.2 ⟨sign, hsign, htext⟩]
    refine bind_eq_ok.2 ⟨_, hrun, if_pos ⟨rfl, ?_⟩⟩
    simpa using hnonempty

/-! ### One meaning -/

/-- Digits that end at the same place are the same. -/
theorem append_letter_inj {digits digits' : List Char} {c' : Char}
    (h : ∀ c ∈ digits, c.isDigit = true) (h' : ∀ c ∈ digits', c.isDigit = true)
    (hc : c.isDigit = false) (hc' : c'.isDigit = false)
    (heq : digits ++ c :: rest = digits' ++ c' :: rest') :
    digits = digits' ∧ c = c' ∧ rest = rest' := by
  have hrun : digits = digits' := by
    have htake := congrArg (List.takeWhile Char.isDigit) heq
    rwa [List.takeWhile_append_of_pos h, List.takeWhile_append_of_pos h',
      List.takeWhile_cons_of_neg (by simp [hc]), List.takeWhile_cons_of_neg (by simp [hc']),
      List.append_nil, List.append_nil] at htake
  subst hrun
  exact ⟨rfl, List.cons.inj (List.append_cancel_left heq)⟩

/-- Whether parts may end there: at the end of the text, or at a letter T. -/
def EndsParts (rest : List Char) : Prop :=
  ∀ c ∈ rest.head?, c = 'T'

/-- Parts begin with a digit. -/
theorem not_endsParts_parts (part : Part) (chars : List Char) :
    ¬ EndsParts (part.digits ++ chars) := by
  obtain ⟨c, digits, hdigits⟩ := List.exists_cons_of_ne_nil part.ne_nil
  intro h
  rw [hdigits] at h
  obtain rfl := h c rfl
  exact absurd (part.isDigit 'T' (hdigits ▸ List.mem_cons_self)) (by decide)

/-- **Parts are told apart by their letters.** -/
theorem partsChars_inj (hrest : EndsParts rest) (hrest' : EndsParts rest')
    (h : partsChars ps ++ rest = partsChars qs ++ rest') : ps = qs ∧ rest = rest' := by
  induction ps generalizing qs with
  | nil =>
    cases qs with
    | nil => exact ⟨rfl, h⟩
    | cons q qs =>
      rw [partsChars_cons, List.append_assoc] at h
      exact absurd ((show rest = _ from h) ▸ hrest) (not_endsParts_parts q _)
  | cons part ps ih =>
    cases qs with
    | nil =>
      rw [partsChars_cons, List.append_assoc] at h
      exact absurd ((show _ = rest' from h) ▸ hrest') (not_endsParts_parts part _)
    | cons q qs =>
      rw [partsChars_cons, partsChars_cons, List.append_assoc, List.append_assoc,
        List.cons_append, List.cons_append] at h
      obtain ⟨hdigits, hletter, hothers⟩ := append_letter_inj part.isDigit q.isDigit
        part.unit.letter_not_digit q.unit.letter_not_digit h
      obtain ⟨hps, hrests⟩ := ih hothers
      rw [Part.ext hdigits (TimeUnit.letter_injective hletter), hps]
      exact ⟨rfl, hrests⟩

theorem Layout.chars_injective (h : l.chars = l'.chars) : l = l' := by
  obtain ⟨days, clock, hdays, hclock⟩ := l
  obtain ⟨days', clock', hdays', hclock'⟩ := l'
  have hends : ∀ clock : Option (List Part), EndsParts (match clock with
      | none => []
      | some ps => 'T' :: partsChars ps) := by
    intro clock c hc
    cases clock with
    | none => exact absurd hc (by simp)
    | some ps => exact (Option.some.inj hc).symm
  obtain ⟨rfl, hhalf⟩ := partsChars_inj (hends clock) (hends clock') h
  have hparts : clock = clock' := by
    cases clock with
    | none => cases clock' <;> first | rfl | exact absurd hhalf (by simp)
    | some ps =>
      cases clock' with
      | none => exact absurd hhalf (by simp)
      | some qs =>
        have hsame := (List.cons.inj hhalf).2
        rw [← List.append_nil (partsChars ps), ← List.append_nil (partsChars qs)] at hsame
        have hnil : EndsParts [] := fun c hc => absurd hc (by simp)
        rw [(partsChars_inj hnil hnil hsame).1]
  subst hparts
  rfl

/-- **A text has one meaning as a duration.** -/
theorem Spells.unique {seconds seconds' : Int} (h : Spells chars l seconds)
    (h' : Spells chars l' seconds') : l = l' ∧ seconds = seconds' := by
  obtain ⟨-, -, sign, value, hsign, htext, rfl⟩ := h
  obtain ⟨-, -, sign', value', hsign', htext', rfl⟩ := h'
  have hsplit := splitSign_eq_iff.2 ⟨sign, hsign, htext⟩
  obtain ⟨rfl, hrest⟩ := Prod.mk.inj
    (hsplit.symm.trans (splitSign_eq_iff.2 ⟨sign', hsign', htext'⟩))
  obtain rfl := Layout.chars_injective (List.cons.inj hrest).2
  exact ⟨rfl, rfl⟩

/-! ### The grammar -/

/-- The number of a part, its seconds, and the sums on the way are all within the bound of
the whole. -/
theorem within_of_parts {before after : List Part} {part : Part}
    (hbounded : l.seconds ≤ maxSeconds) (hparts : l.parts = before ++ part :: after) :
    part.number ≤ maxSeconds ∧ part.seconds ≤ maxSeconds ∧
      total before + part.seconds ≤ maxSeconds := by
  have hnumber : part.number ≤ part.seconds :=
    Nat.le_mul_of_pos_right _ part.unit.one_le_seconds
  have hsum : l.seconds = total before + (part.seconds + total after) := by
    rw [Layout.seconds, hparts, total_append]
    rfl
  omega

theorem followsGrammar_iff_ordered : FollowsGrammar text ↔
    ∀ l seconds, Spells (capitals text) l seconds → l.Ordered := by
  constructor
  · intro h l seconds hspells
    obtain ⟨l', hspells', hordered⟩ := (h seconds).1 (read_eq_ok_iff.2 ⟨l, hspells⟩)
    rwa [(hspells.unique hspells').1]
  · intro h seconds
    rw [read_eq_ok_iff]
    exact exists_congr fun l => ⟨fun hspells => ⟨hspells, h l seconds hspells⟩, And.left⟩

/-- **Which texts are read as durations, and when the grammar has them.** A text is read
exactly when its capitals are a sign, the letter P and parts that do not add up to too much,
as the signed sum of these parts; no number and no sum on the way is greater than the most
seconds that a duration may have. The grammar says the same of the text unless the parts are
out of order or one is repeated, or no part follows the letter T. -/
theorem followsGrammar_iff (text : String) :
    (∀ seconds, read text = .ok seconds ↔ ∃ l, Spells (capitals text) l seconds) ∧
      (∀ l seconds, Spells (capitals text) l seconds →
        ∀ before part after, l.parts = before ++ part :: after → part.number ≤ maxSeconds ∧
          part.seconds ≤ maxSeconds ∧ total before + part.seconds ≤ maxSeconds) ∧
      (FollowsGrammar text ↔ ∀ l seconds, Spells (capitals text) l seconds → l.Ordered) := by
  refine ⟨fun seconds => read_eq_ok_iff, ?_, followsGrammar_iff_ordered⟩
  intro l seconds hspells before part after hparts
  exact within_of_parts hspells.bounded hparts

/-- Two days and ninety minutes back, in small letters and between blanks. -/
theorem followsGrammar_iff_back :
    let text := " -p2dt90m\n"
    let parts : Layout := ⟨[⟨['2'], .day, by decide, by simp⟩],
      some [⟨['9', '0'], .minute, by decide, by simp⟩], by decide, by decide⟩
    Spells (capitals text) parts (-178200) ∧ parts.Ordered ∧ read text = .ok (-178200) ∧
      FollowsGrammar text := by
  intro text parts
  have hspells : Spells (capitals text) parts (-178200) :=
    ⟨by simp [parts, Layout.parts], by decide, ['-'], -1, .minus, by decide, by decide⟩
  have hordered : parts.Ordered := ⟨by decide, by decide⟩
  obtain ⟨hread, -, hfollows⟩ := followsGrammar_iff text
  refine ⟨hspells, hordered, (hread _).2 ⟨parts, hspells⟩, hfollows.2 ?_⟩
  intro l seconds hspells'
  rwa [(hspells'.unique hspells).1]

theorem not_followsGrammar_of_spells {seconds : Int} (h : Spells (capitals text) l seconds)
    (hordered : ¬ l.Ordered) : read text = .ok seconds ∧ ¬ FollowsGrammar text :=
  ⟨read_eq_ok_iff.2 ⟨l, h⟩, fun hfollows =>
    hordered (followsGrammar_iff_ordered.1 hfollows l seconds h)⟩

/-- **More is read than the grammar has**: a letter T without any part behind it, weeks
behind days, and a unit that is repeated. -/
theorem not_followsGrammar_unordered :
    (read "P1DT" = .ok 86400 ∧ ¬ FollowsGrammar "P1DT") ∧
      (read "P1D1W" = .ok 691200 ∧ ¬ FollowsGrammar "P1D1W") ∧
      read "PT1H2H" = .ok 10800 ∧ ¬ FollowsGrammar "PT1H2H" := by
  let one (unit : TimeUnit) : Part := ⟨['1'], unit, by decide, by simp⟩
  let two (unit : TimeUnit) : Part := ⟨['2'], unit, by decide, by simp⟩
  refine ⟨?_, ?_, ?_⟩
  · refine not_followsGrammar_of_spells (l := ⟨[one .day], some [], by decide, by decide⟩)
      ⟨by simp [Layout.parts], by decide, [], 1, .none, by decide, by decide⟩ ?_
    exact fun h => (h.clock [] rfl).1 rfl
  · refine not_followsGrammar_of_spells
      (l := ⟨[one .day, one .week], none, by decide, by decide⟩)
      ⟨by simp [Layout.parts], by decide, [], 1, .none, by decide, by decide⟩ ?_
    exact fun h => absurd h.days (by decide)
  · refine not_followsGrammar_of_spells
      (l := ⟨[], some [one .hour, two .hour], by decide, by decide⟩)
      ⟨by simp [Layout.parts], by decide, [], 1, .none, by decide, by decide⟩ ?_
    exact fun h => absurd (h.clock _ rfl).2 (by decide)

end Recurrence.Duration
