import GraphSelection.Schema.Rule
import GraphSelection.Schema.Scalar

/-!
The schema model: entities with their attributes and relationships, the interfaces and unions over
them, and the property sets that relationships carry. Declaration order is kept everywhere.
-/
namespace GraphSelection

/-- A statement that yields the value of an attribute, and the column it comes in. -/
structure Computation where
  statement : String
  column : String
  deriving DecidableEq

structure Attribute where
  name : String
  /-- The stored property, where it is not called like the attribute. -/
  storedAs : Option String := none
  kind : ScalarKind
  isList : Bool := false
  nullable : Bool := true
  isUnique : Bool := false
  computation : Option Computation := none
  rules : List Rule := []

namespace Attribute

/-- The name of the stored property. -/
def stored (a : Attribute) : String := a.storedAs.getD a.name

def isComputed (a : Attribute) : Bool := a.computation.isSome

end Attribute

inductive Direction where
  | outgoing
  | incoming
  | either
  deriving DecidableEq, Repr

namespace Direction

def table : List (String × Direction) :=
  [("OUT", .outgoing), ("IN", .incoming), ("EITHER", .either)]

def name : Direction → String
  | .outgoing => "OUT"
  | .incoming => "IN"
  | .either => "EITHER"

end Direction

/-- Changes to a relationship that may stand inside another change. -/
inductive NestedAction where
  | connect
  | create
  | update
  | disconnect
  | delete
  deriving DecidableEq, Repr

namespace NestedAction

def table : List (String × NestedAction) :=
  [("CONNECT", .connect), ("CREATE", .create), ("UPDATE", .update), ("DISCONNECT", .disconnect),
   ("DELETE", .delete)]

def all : List NestedAction := table.map Prod.snd

def name : NestedAction → String
  | .connect => "connect"
  | .create => "create"
  | .update => "update"
  | .disconnect => "disconnect"
  | .delete => "delete"

def keyword : NestedAction → String
  | .connect => "CONNECT"
  | .create => "CREATE"
  | .update => "UPDATE"
  | .disconnect => "DISCONNECT"
  | .delete => "DELETE"

end NestedAction

structure Relationship where
  name : String
  /-- The stored relationship type. -/
  graphType : String
  direction : Direction
  /-- An entity, an interface or a union. -/
  target : String
  isList : Bool
  /-- The property set that the relationship carries. -/
  properties : Option String
  nestedActions : List NestedAction

def Relationship.allows (r : Relationship) (action : NestedAction) : Bool :=
  r.nestedActions.contains action

structure PropertySet where
  name : String
  attributes : Entries Attribute

def PropertySet.attribute? (p : PropertySet) (name : String) : Option Attribute :=
  p.attributes.get? name

/-- Page sizes of one entity. -/
structure PagePolicy where
  default : Option Nat
  max : Option Nat
  deriving DecidableEq

structure Entity where
  name : String
  labels : List String
  attributes : Entries Attribute
  relationships : Entries Relationship
  rules : List Rule
  pages : Option PagePolicy

namespace Entity

def attribute? (e : Entity) (name : String) : Option Attribute := e.attributes.get? name

def relationship? (e : Entity) (name : String) : Option Relationship := e.relationships.get? name

def mainLabel (e : Entity) : String := e.labels.head?.getD e.name

end Entity

inductive CompositeKind where
  | interface
  | union
  deriving DecidableEq, Repr

/-- An interface or a union. A union shares no attributes and no relationships. -/
structure Composite where
  name : String
  kind : CompositeKind
  constituents : List String
  sharedAttributes : Entries Attribute
  relationships : Entries Relationship

namespace Composite

def isUnion (c : Composite) : Bool := c.kind == .union

def hasConstituent (c : Composite) (name : String) : Bool := c.constituents.contains name

end Composite

/-- What the name of a target stands for. -/
inductive Target where
  | entity (entity : Entity)
  | composite (composite : Composite)

def Target.name : Target → String
  | .entity e => e.name
  | .composite c => c.name

structure Schema where
  entities : Entries Entity
  composites : Entries Composite
  propertySets : Entries PropertySet

end GraphSelection
