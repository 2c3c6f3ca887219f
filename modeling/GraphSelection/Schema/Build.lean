import GraphSelection.Schema.Definition
import GraphSelection.Schema.Fault

/-!
From a definition to a schema. The checks run in a fixed order and the first one that fails is
reported: some entity, no name twice, then entities, interfaces and unions in turn.
-/
namespace GraphSelection.Definition

open GraphSelection

abbrev Check := Except SchemaFault Unit

def reject (location : String) (fault : DefinitionFault) : Check := .error (.invalid location fault)

/-- A name inside an entity or an interface. -/
def within (owner name : String) : String := owner ++ "." ++ name

/-- Entities, interfaces, unions and property sets share their names. -/
def names (d : Definition) : List String :=
  d.entities.keys ++ d.interfaces.keys ++ d.unions.keys ++ d.propertySets.keys

def firstRepeated (seen : List String) : List String → Option String
  | [] => none
  | name :: rest =>
      if seen.contains name then some name else firstRepeated (name :: seen) rest

def checkNames (d : Definition) : Check :=
  match firstRepeated [] d.names with
  | some name => reject name .repeatedName
  | none => .ok ()

def declares (d : Definition) (target : String) : Bool :=
  d.entities.has target || d.interfaces.has target || d.unions.has target

def checkRelationship (d : Definition) (location : String) (r : RelationshipDef) : Check := do
  if ! d.declares r.target then reject location (.undeclaredTarget r.target)
  match r.properties with
  | some p => if ! d.propertySets.has p then reject location (.undeclaredProperties p)
  | none => pure ()
  if Text.trim r.graphType = "" then reject location .blankType

def checkAttribute (location : String) (a : AttributeDef) : Check :=
  if a.computation.isSome && a.storedAs.isSome then reject location .aliasedComputation else .ok ()

def checkEntity (d : Definition) (name : String) (e : EntityDef) : Check := do
  e.relationships.forM fun (r, rel) => d.checkRelationship (within name r) rel
  e.attributes.forM fun (a, attr) => checkAttribute (within name a) attr

def checkConstituents (d : Definition) (name : String) (members : List String) : Check := do
  if members.isEmpty then reject name .noConstituents
  members.forM fun m =>
    if d.entities.has m then pure () else reject name (.undeclaredConstituent m)

/-- The implementation declares what the interface promises. -/
def checkImplementation (d : Definition) (name : String) (i : InterfaceDef) (member : String) :
    Check := do
  match d.entities.get? member with
  | none => reject name (.undeclaredConstituent member)
  | some e =>
      i.attributes.forM fun (a, attr) =>
        match e.attributes.get? a with
        | none => reject (within name a) (.missingAttribute member)
        | some own =>
            if own.typeName ≠ attr.typeName ∨ own.list ≠ attr.list then
              reject (within name a) (.incompatibleAttribute member)
            else pure ()
      i.relationships.forM fun (r, _) =>
        if e.relationships.has r then pure ()
        else reject (within name r) (.missingRelationship member)

def checkInterface (d : Definition) (name : String) (i : InterfaceDef) : Check := do
  d.checkConstituents name i.implementations
  i.implementations.forM (d.checkImplementation name i)
  i.relationships.forM fun (r, rel) => d.checkRelationship (within name r) rel

def check (d : Definition) : Check := do
  if d.entities.isEmpty then .error .noEntities
  d.checkNames
  d.entities.forM fun (name, e) => d.checkEntity name e
  d.interfaces.forM fun (name, i) => d.checkInterface name i
  d.unions.forM fun (name, members) => d.checkConstituents name members

/-- The scalar name of a type, and whether it stands in square brackets. -/
def bareType (typeName : String) : String × Bool :=
  let trimmed := Text.trim typeName
  match (Text.dropStart? trimmed "[").bind (Text.dropEnd? · "]") with
  | some inner => (inner, true)
  | none => (trimmed, false)

def buildAttribute (enums : List String) (name : String) (a : AttributeDef) : Attribute :=
  let (typeName, bracketed) := bareType a.typeName
  { name
    storedAs := a.storedAs
    kind := ScalarKind.ofName typeName enums
    isList := a.list || bracketed
    nullable := a.nullable
    isUnique := a.unique
    computation := a.computation
    rules := a.rules }

def buildRelationship (name : String) (r : RelationshipDef) : Relationship :=
  { name
    graphType := r.graphType
    direction := r.direction
    target := r.target
    isList := r.list
    properties := r.properties
    nestedActions := r.nestedActions.getD NestedAction.all }

def buildEntity (enums : List String) (name : String) (e : EntityDef) : Entity :=
  { name
    labels := if e.labels.isEmpty then [name] else e.labels
    attributes := e.attributes.mapValues (buildAttribute enums)
    relationships := e.relationships.mapValues buildRelationship
    rules := e.rules
    pages := e.pages }

def buildInterface (enums : List String) (name : String) (i : InterfaceDef) : Composite :=
  { name
    kind := .interface
    constituents := i.implementations
    sharedAttributes := i.attributes.mapValues (buildAttribute enums)
    relationships := i.relationships.mapValues buildRelationship }

def buildUnion (name : String) (members : List String) : Composite :=
  { name, kind := .union, constituents := members, sharedAttributes := [], relationships := [] }

def model (d : Definition) : Schema :=
  { entities := d.entities.mapValues (buildEntity d.enums)
    composites :=
      d.interfaces.mapValues (buildInterface d.enums) ++ d.unions.mapValues buildUnion
    propertySets := d.propertySets.mapValues fun name attributes =>
      { name, attributes := attributes.mapValues (buildAttribute d.enums) } }

/-- The schema of a definition in which every check passes. -/
def build (d : Definition) : Except SchemaFault Schema := do
  d.check
  return d.model

end GraphSelection.Definition
