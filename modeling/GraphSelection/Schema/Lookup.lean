import GraphSelection.Schema.Fault
import GraphSelection.Schema.Model

/-!
Names resolved against a schema.
-/
namespace GraphSelection.Schema

def entity (s : Schema) (name : String) : Except SchemaFault Entity :=
  match s.entities.get? name with
  | some e => .ok e
  | none => .error (.unknownEntity name)

/-- An entity of the name, or else a composite. -/
def target (s : Schema) (name : String) : Except SchemaFault Target :=
  match s.entities.get? name with
  | some e => .ok (.entity e)
  | none =>
      match s.composites.get? name with
      | some c => .ok (.composite c)
      | none => .error (.unknownEntity name)

def relationship (e : Entity) (field : String) : Except SchemaFault Relationship :=
  match e.relationship? field with
  | some r => .ok r
  | none => .error (.unknownField e.name field)

def targetOf (s : Schema) (r : Relationship) : Except SchemaFault Target := s.target r.target

def propertiesOf (s : Schema) (r : Relationship) : Option PropertySet :=
  r.properties.bind s.propertySets.get?

def constituents (s : Schema) (c : Composite) : Except SchemaFault (List Entity) :=
  c.constituents.mapM s.entity

/-- The entities that a target stands for. -/
def members (s : Schema) : Target → Except SchemaFault (List Entity)
  | .entity e => .ok [e]
  | .composite c => s.constituents c

end GraphSelection.Schema
