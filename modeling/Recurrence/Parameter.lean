/-
# Parameters of recurrence properties

Lists of dates take a time zone and a value type; every property takes
extension parameters, whose names begin with `X-` and which are kept as they
are. No name occurs twice in a line.

Key definitions: `ValueType`, `Parameter`, `Parameters`, `Parameters.read`.
-/
import Recurrence.ContentLine.Basic
import Recurrence.Fault

namespace Recurrence

/-- The types of value that a list of dates may declare. -/
inductive ValueType
  | date | dateTime | period
  deriving DecidableEq

namespace ValueType

/-- The types of value. -/
def all : List ValueType := [date, dateTime, period]

/-- The name of a type of value. -/
def name : ValueType → String
  | date => "DATE"
  | dateTime => "DATE-TIME"
  | period => "PERIOD"

/-- The type of value of a name in any case. -/
def read (text : String) : Except Fault ValueType :=
  match all.find? (·.name == Text.upper text) with
  | some type => .ok type
  | none => .error (.valueType text)

end ValueType

/-- A parameter and what it means. -/
inductive Parameter
  /-- The zone in which times without a mark are read. -/
  | zone (name : String)
  /-- The type of the values of the line. -/
  | valueType (type : ValueType)
  /-- A parameter that is kept as it is. -/
  | extension (name : String) (values : List String)
  deriving DecidableEq

namespace Parameter

/-- Whether a name, in capitals, is that of an extension. -/
def isExtensionName (name : String) : Bool :=
  "X-".toList.isPrefixOf name.toList

/-- The meaning of a parameter as written; of several values the last counts. -/
def read (raw : RawParameter) : Except Fault Parameter :=
  let name := Text.upper raw.name
  if name == "TZID" then .ok (zone (raw.values.getLastD ""))
  else if name == "VALUE" then (ValueType.read (raw.values.getLastD "")).map valueType
  else if isExtensionName name then .ok (extension name raw.values)
  else .error (.parameter raw.name)

/-- A parameter as it is written. -/
def raw : Parameter → RawParameter
  | zone name => ⟨"TZID", [name]⟩
  | valueType type => ⟨"VALUE", [type.name]⟩
  | extension name values => ⟨name, values⟩

/-- Whether a parameter is kept as it is. -/
def isExtension : Parameter → Bool
  | extension _ _ => true
  | _ => false

end Parameter

/-- Which properties a parameter may stand on. -/
inductive ParameterSchema
  /-- Rules, which take extensions only. -/
  | rule
  /-- Lists of dates. -/
  | dates
  deriving DecidableEq

/-- The parameters of a line, in their order. -/
structure Parameters where
  items : List Parameter
  deriving DecidableEq

namespace Parameters

/-- No parameters. -/
def empty : Parameters := ⟨[]⟩

/-- The meaning of one parameter of a property, in the production of its name. -/
def readOne (schema : ParameterSchema) (raw : RawParameter) : Except Malformed Parameter := do
  let name := Text.upper raw.name
  let p ← inProduction name (bare (Parameter.read raw))
  if schema = .rule ∧ ¬ p.isExtension then
    throw (Fault.parameterNotAllowed name).malformed
  return p

/-- The meaning of parameters of a property that follow those of the given
names. -/
def readAfter (schema : ParameterSchema) :
    List String → List RawParameter → Except Malformed (List Parameter)
  | _, [] => .ok []
  | seen, raw :: rest => do
    let name := Text.upper raw.name
    if name ∈ seen then throw (Fault.duplicateParameter raw.name).malformed
    let p ← readOne schema raw
    let ps ← readAfter schema (name :: seen) rest
    return p :: ps

/-- The meaning of the parameters of a property. -/
def read (schema : ParameterSchema) (raws : List RawParameter) : Except Malformed Parameters :=
  (readAfter schema [] raws).map Parameters.mk

/-- The parameters with one more at the end. -/
def push (ps : Parameters) (p : Parameter) : Parameters :=
  ⟨ps.items ++ [p]⟩

/-- The first zone named. -/
def zoneName? (ps : Parameters) : Option String :=
  ps.items.findSome? fun
    | .zone name => some name
    | _ => none

/-- The first type of value declared. -/
def valueType? (ps : Parameters) : Option ValueType :=
  ps.items.findSome? fun
    | .valueType type => some type
    | _ => none

/-- The values of the first extension of a name in any case. -/
def extension? (ps : Parameters) (name : String) : Option (List String) :=
  ps.items.findSome? fun
    | .extension own values => if Text.upper own == Text.upper name then some values else none
    | _ => none

/-- The parameters as they are written. -/
def raw (ps : Parameters) : List RawParameter :=
  ps.items.map Parameter.raw

end Parameters

end Recurrence
