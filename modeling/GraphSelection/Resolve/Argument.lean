import GraphSelection.Failure
import GraphSelection.Request.Basic
import GraphSelection.Request.Principal
import GraphSelection.Schema.Lookup
import GraphSelection.Settings

/-!
Arguments of a request and the paths under which their faults are reported.
-/
namespace GraphSelection.Resolve

open GraphSelection

/-- Everything a request is resolved against. -/
structure Setup where
  schema : Schema
  settings : Settings
  principal : Principal

/-- A part of a plan, or why there is none. -/
abbrev Result := Except Failure

def childPath (path key : String) : String := path ++ "." ++ key

def itemPath (path : String) (index : Nat) : String := path ++ "[" ++ toString index ++ "]"

/-- A name looked up in the schema. -/
def ofSchema {α : Type} : Except SchemaFault α → Result α
  | .ok a => .ok a
  | .error fault => .error (Failure.ofSchema fault)

def asRecord (doc : Doc) (path : String) : Result Doc.Members :=
  match doc with
  | .record members => .ok members
  | _ => .error (.argument path .expectedObject)

def asCount (doc : Doc) (path : String) : Result Nat :=
  match doc.asCount? with
  | some n => .ok n
  | none => .error (.argument path .expectedCount)

/-- An object of an argument and where it stands. -/
structure Placed where
  members : Doc.Members
  path : String

/-- A record argument; null is as good as none. -/
def recordArg (args : Doc.Members) (name path : String) : Result (Option Doc.Members) :=
  match args.get? name with
  | none => .ok none
  | some .null => .ok none
  | some (.record members) => .ok (some members)
  | some _ => .error (.argument (childPath path name) .expectedObject)

/-- A list argument; a single record is a list of one. -/
def listArg (args : Doc.Members) (name path : String) : Result (List Doc) :=
  match args.get? name with
  | none => .ok []
  | some .null => .ok []
  | some (.list items) => .ok items
  | some (.record members) => .ok [.record members]
  | some _ => .error (.argument (childPath path name) .expectedList)

/-- The items of a list with their positions. -/
def indexed {α : Type} (items : List α) : List (Nat × α) := (List.range items.length).zip items

end GraphSelection.Resolve
