/-
# Lists of dates

A line may list dates, date-times or periods instead of giving a rule. Times
marked as UTC are kept; others are read on the clocks of the zone that the line
names, as a time zone database has it, or else of the zone the list is read in.
Everything is kept in UTC, a period by its start and its end.

Key definitions: `DateList`, `DateList.ofItems`, `DateList.read`, `DateList.line`,
`DateList.text`.
-/
import Recurrence.ContentLine.Read
import Recurrence.Duration
import Recurrence.Moment.Read
import Recurrence.Parameter
import Recurrence.Period
import Recurrence.Rule.Basic
import Recurrence.Zone.Named

namespace Recurrence

/-- The name of the property that lists dates. -/
def Effect.datesName : Effect → String
  | .includes => "RDATE"
  | .excludes => "EXDATE"

/-- The moments that a line lists, in UTC. -/
structure DateList where
  effect : Effect
  valueType : ValueType
  /-- The zone that the line names. -/
  zone : Option NamedZone
  /-- The moments, or the starts of the periods. -/
  dates : List Moment
  /-- The periods, if it is periods that are listed. -/
  periods : List Period
  parameters : Parameters
  deriving DecidableEq

namespace DateList

/-- What is listed: a moment, or a period and its start. -/
inductive Item
  | moment (m : Moment)
  | period (p : Period)

namespace Item

/-- The moment, or the start of the period. -/
def start : Item → Moment
  | moment m => m
  | period p => p.start

/-- The period, if it is one. -/
def period? : Item → Option Period
  | moment _ => none
  | period p => some p

end Item

/-- A moment in UTC; one without the mark of UTC is on the clocks of the
zone. -/
def readMoment (zone : Zone) (text : List Char) : Except Fault Moment :=
  (Moment.readMarked (String.ofList text)).map fun (m, utc) =>
    if utc then m else zone.localToUtc m

/-- A period as its start and its end or its length. -/
def readPeriod (zone : Zone) (text : List Char) : Except Fault Period := do
  match text.dropWhile (· != '/') with
  | [] => throw (.periodEnd (String.ofList text))
  | _ :: finish =>
    let start ← readMoment zone (text.takeWhile (· != '/'))
    let isLength := finish.head?.any fun c => c == 'P' || c == 'p' || c == '+' || c == '-'
    let period ←
      if isLength then Period.lasting start <$> Duration.read (String.ofList finish)
      else Period.between start <$> readMoment zone finish
    period.mapError (.period (String.ofList text))

/-- One item of a list of values of a declared type. -/
def readItem (declared : Option ValueType) (zone : Zone) (text : List Char) :
    Except Fault Item :=
  if declared = some .period then (readPeriod zone text).map .period
  else do
    let m ← readMoment zone text
    if declared = some .date ∧ m.hasTime then throw (.notDate (String.ofList text))
    if declared = some .dateTime ∧ ¬ m.hasTime then throw (.notDateTime (String.ofList text))
    return .moment m

/-- The items of a list of values, separated by commas. -/
def readItems (declared : Option ValueType) (zone : Zone) (value : String) :
    Except Fault (List Item) :=
  (Text.fields ',' value.toList).mapM fun field =>
    let item := Text.trimChars field
    if item.isEmpty then .error (.emptyValue value) else readItem declared zone item

/-- The zone that parameters name. -/
def zoneIn (database : Database) (parameters : Parameters) :
    Except Malformed (Option NamedZone) :=
  match parameters.zoneName? with
  | some name => inProduction "TZID" ((database.find name).map some)
  | none => pure none

/-- The list that items of a line make up. -/
def ofItems (effect : Effect) (parameters : Parameters) (named : Option NamedZone)
    (items : List Item) : DateList :=
  let dates := items.map Item.start
  { effect
    valueType :=
      parameters.valueType?.getD (if dates.any Moment.hasTime then .dateTime else .date)
    zone := named
    dates
    periods := items.filterMap Item.period?
    parameters }

/-- The list of a content line, read in a zone; the line may name one that the
database knows. -/
def read (database : Database) (effect : Effect) (line : ContentLine) (zone : Zone) :
    Except Malformed DateList := do
  let parameters ← Parameters.read .dates line.parameters
  let named ← zoneIn database parameters
  let items ← bare (readItems parameters.valueType? ((named.map NamedZone.zone).getD zone)
    line.value)
  return ofItems effect parameters named items

/-- A moment in the zone of the line, or marked as UTC if the line names
none. -/
def momentText (zone : Option NamedZone) (m : Moment) : String :=
  if m.hasTime then
    match zone with
    | some named => (named.zone.utcToLocal m).text
    | none => m.text ++ "Z"
  else m.text

/-- The parameters of a list, with the type of its values where that is not the
usual one. -/
def allParameters (list : DateList) : Parameters :=
  if list.parameters.valueType?.isNone ∧ list.valueType ≠ .dateTime then
    list.parameters.push (.valueType list.valueType)
  else list.parameters

/-- The content line of a list. -/
def line (list : DateList) : ContentLine :=
  let items :=
    if list.periods.isEmpty then list.dates.map (momentText list.zone)
    else list.periods.map (Period.textWith (momentText list.zone))
  ⟨list.effect.datesName, list.allParameters.raw, Text.joinWith ',' items⟩

/-- A list as it is written. -/
def text (list : DateList) : String :=
  list.line.text

end DateList

end Recurrence
