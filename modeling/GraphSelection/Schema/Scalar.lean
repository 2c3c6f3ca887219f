import GraphSelection.Text.Blank

/-!
Kinds of attribute values. The kind decides which comparisons and reductions an attribute takes
part in, and which constructor turns a parameter back into a temporal or spatial value.
-/
namespace GraphSelection

inductive ScalarKind where
  | string
  | id
  | int
  | bigInt
  | float
  | boolean
  | dateTime
  | localDateTime
  | date
  | time
  | localTime
  | duration
  | point
  | cartesianPoint
  /-- A declared enumeration; its values compare as text. -/
  | enumeration (name : String)
  /-- Any other name: nothing is known about its values. -/
  | custom (name : String)
  deriving DecidableEq, Repr, Inhabited

namespace ScalarKind

/-- The names of the built-in kinds, with the spellings that are accepted for them. -/
def spellings : List (String × ScalarKind) :=
  [("String", .string), ("string", .string), ("text", .string),
   ("ID", .id), ("Id", .id), ("id", .id),
   ("Int", .int), ("int", .int), ("integer", .int),
   ("BigInt", .bigInt), ("bigint", .bigInt), ("long", .bigInt),
   ("Float", .float), ("float", .float), ("double", .float),
   ("Boolean", .boolean), ("boolean", .boolean), ("bool", .boolean),
   ("DateTime", .dateTime), ("datetime", .dateTime),
   ("LocalDateTime", .localDateTime),
   ("Date", .date), ("date", .date),
   ("Time", .time), ("LocalTime", .localTime), ("Duration", .duration),
   ("Point", .point), ("CartesianPoint", .cartesianPoint)]

/-- The kind a type name stands for; blanks around the name do not count. -/
def ofName (name : String) (enums : List String) : ScalarKind :=
  let name := Text.trim name
  match List.lookup name spellings with
  | some kind => kind
  | none => if enums.contains name then .enumeration name else .custom name

def name : ScalarKind → String
  | .string => "String"
  | .id => "ID"
  | .int => "Int"
  | .bigInt => "BigInt"
  | .float => "Float"
  | .boolean => "Boolean"
  | .dateTime => "DateTime"
  | .localDateTime => "LocalDateTime"
  | .date => "Date"
  | .time => "Time"
  | .localTime => "LocalTime"
  | .duration => "Duration"
  | .point => "Point"
  | .cartesianPoint => "CartesianPoint"
  | .enumeration name => name
  | .custom name => name

def isNumeric : ScalarKind → Bool
  | .int | .bigInt | .float => true
  | _ => false

/-- Kinds that are matched with the operators on text. -/
def isTextual : ScalarKind → Bool
  | .string | .id | .enumeration _ => true
  | _ => false

def isTemporal : ScalarKind → Bool
  | .dateTime | .localDateTime | .date | .time | .localTime | .duration => true
  | _ => false

def isSpatial : ScalarKind → Bool
  | .point | .cartesianPoint => true
  | _ => false

/-- Kinds with an order that comparisons, least and greatest values use. -/
def isOrdered (kind : ScalarKind) : Bool :=
  kind.isNumeric || kind.isTemporal || kind == .string || kind == .id

/-- The function that turns a parameter into a value of this kind. -/
def constructor? : ScalarKind → Option String
  | .dateTime => some "datetime"
  | .localDateTime => some "localdatetime"
  | .date => some "date"
  | .time => some "time"
  | .localTime => some "localtime"
  | .duration => some "duration"
  | .point => some "point"
  | .cartesianPoint => some "point"
  | _ => none

end ScalarKind

end GraphSelection
