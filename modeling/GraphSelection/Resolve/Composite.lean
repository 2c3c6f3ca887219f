import GraphSelection.Resolve.Argument

/-!
Composites narrowed by a `where` argument: an interface by type names, a union by its members.
-/
namespace GraphSelection.Resolve

open GraphSelection

/-- A constituent that is kept, and the `where` that is left for it. -/
abbrev Kept := Entity × Option Doc.Members

def typeName (path : String) : Doc → Result String
  | .text name => .ok name
  | _ => .error (.argument path .expectedTypeNames)

/-- The type names of a narrowing, each of which must be a constituent. -/
def typeNames (composite : Composite) (value : Doc) (path : String) : Result (List String) := do
  let names ← (match value with
    | .text name => .ok [name]
    | .list items => items.mapM (typeName path)
    | _ => .error (.argument path .expectedTypeNameList) : Result (List String))
  match names.find? fun name => !composite.hasConstituent name with
  | some unknown => .error (.argument path (.notConstituent unknown composite.name))
  | none => return names

def keptMember (members : Doc.Members) (path : String) (e : Entity) : Result (List Kept) :=
  match members.get? e.name with
  | none => .ok []
  | some .null => .ok [(e, none)]
  | some value => do
      let own ← asRecord value (childPath path e.name)
      return [(e, some own)]

/-- A union keeps the members that are named, each with its own `where`. -/
def narrowUnion (composite : Composite) (entities : List Entity) (members : Doc.Members)
    (path : String) : Result (List Kept) := do
  match members.find? fun (key, _) => !composite.hasConstituent key with
  | some (key, _) => .error (.unknownField composite.name key)
  | none =>
      let kept ← entities.mapM (keptMember members path)
      return kept.flatten

/-- The type names that an interface is narrowed to. -/
def allowedNames (composite : Composite) (members : Doc.Members) (path : String) :
    Result (Option (List String)) :=
  let here := childPath path "typename"
  match members.get? "typename", members.get? "typename_IN" with
  | some _, some _ => .error (.filter here .typenameTwice)
  | some names, none => (typeNames composite names here).map some
  | none, some names => (typeNames composite names here).map some
  | none, none => .ok none

/-- An interface keeps the named types; what else is asked goes to each of them. -/
def narrowInterface (composite : Composite) (entities : List Entity) (members : Doc.Members)
    (path : String) : Result (List Kept) := do
  let allowed ← allowedNames composite members path
  let rest := (members.swapErase "typename").swapErase "typename_IN"
  let rest := if rest.isEmpty then none else some rest
  let kept := entities.filter fun e => allowed.all fun names => names.contains e.name
  return kept.map fun e => (e, rest)

/-- The constituents of a composite that a `where` argument keeps. -/
def narrow (schema : Schema) (composite : Composite) (whereArg : Option Doc.Members)
    (path : String) : Result (List Kept) := do
  let entities ← ofSchema (schema.constituents composite)
  match whereArg with
  | none => return entities.map fun e => (e, none)
  | some members =>
      if members.isEmpty then return entities.map fun e => (e, none)
      else if composite.isUnion then narrowUnion composite entities members path
      else narrowInterface composite entities members path

end GraphSelection.Resolve
