import GraphSelection.Schema.Model

/-!
Schema definitions as they are written down, before anything has been checked.
-/
namespace GraphSelection.Definition

structure AttributeDef where
  /-- A scalar name; in square brackets it declares a list. -/
  typeName : String
  list : Bool
  nullable : Bool
  unique : Bool
  storedAs : Option String
  computation : Option Computation
  rules : List Rule

structure RelationshipDef where
  graphType : String
  direction : Direction
  target : String
  list : Bool
  properties : Option String
  nestedActions : Option (List NestedAction)

structure EntityDef where
  labels : List String
  attributes : Entries AttributeDef
  relationships : Entries RelationshipDef
  rules : List Rule
  pages : Option PagePolicy

structure InterfaceDef where
  implementations : List String
  attributes : Entries AttributeDef
  relationships : Entries RelationshipDef

end GraphSelection.Definition

namespace GraphSelection

open Definition in
structure Definition where
  enums : List String
  entities : Entries EntityDef
  propertySets : Entries (Entries AttributeDef)
  interfaces : Entries InterfaceDef
  /-- The members of each union. -/
  unions : Entries (List String)

namespace Definition

open Decode

def decodeComputation : Decoder Computation := fun format doc => do
  let fs ← fields ["statement", "column"] format doc
  let statement ← required text fs "statement"
  let column ← required text fs "column"
  return { statement, column }

def decodePages : Decoder PagePolicy := fun format doc => do
  let fs ← fields ["default", "max"] format doc
  let default ← orElse (optional word) fs "default" none
  let max ← orElse (optional word) fs "max" none
  return { default, max }

def decodeAttribute : Decoder AttributeDef := fun format doc => do
  let fs ← fields ["type", "list", "nullable", "unique", "alias", "computed", "authorization"]
    format doc
  let typeName ← required text fs "type"
  let list' ← orElse bool fs "list" false
  let nullable ← orElse bool fs "nullable" true
  let unique ← orElse bool fs "unique" false
  let storedAs ← orElse (optional text) fs "alias" none
  let computation ← orElse (optional decodeComputation) fs "computed" none
  let rules ← orElse (list Rule.decode) fs "authorization" []
  return { typeName, list := list', nullable, unique, storedAs, computation, rules }

def decodeRelationship : Decoder RelationshipDef := fun format doc => do
  let fs ← fields ["type", "direction", "target", "list", "properties", "nestedOperations"]
    format doc
  let graphType ← required text fs "type"
  let direction ← orElse (choice Direction.table) fs "direction" .outgoing
  let target ← required text fs "target"
  let list' ← orElse bool fs "list" true
  let properties ← orElse (optional text) fs "properties" none
  let nestedActions ←
    orElse (optional (choices NestedAction.table)) fs "nestedOperations" none
  return { graphType, direction, target, list := list', properties, nestedActions }

def decodeEntity : Decoder EntityDef := fun format doc => do
  let fs ← fields ["labels", "attributes", "relationships", "authorization", "limit"] format doc
  let labels ← orElse (list text) fs "labels" []
  let attributes ← orElse (entries decodeAttribute) fs "attributes" []
  let relationships ← orElse (entries decodeRelationship) fs "relationships" []
  let rules ← orElse (list Rule.decode) fs "authorization" []
  let pages ← orElse (optional decodePages) fs "limit" none
  return { labels, attributes, relationships, rules, pages }

def decodePropertySet : Decoder (Entries AttributeDef) := fun format doc => do
  let fs ← fields ["attributes"] format doc
  orElse (entries decodeAttribute) fs "attributes" []

def decodeInterface : Decoder InterfaceDef := fun format doc => do
  let fs ← fields ["implementations", "attributes", "relationships"] format doc
  let implementations ← required (list text) fs "implementations"
  let attributes ← orElse (entries decodeAttribute) fs "attributes" []
  let relationships ← orElse (entries decodeRelationship) fs "relationships" []
  return { implementations, attributes, relationships }

def decodeUnion : Decoder (List String) := fun format doc => do
  let fs ← fields ["members"] format doc
  required (list text) fs "members"

def decode : Decoder Definition := fun format doc => do
  let fs ← fields ["enums", "entities", "relationshipProperties", "interfaces", "unions"] format doc
  let enums ← orElse (list text) fs "enums" []
  let entities ← orElse (entries decodeEntity) fs "entities" []
  let propertySets ← orElse (entries decodePropertySet) fs "relationshipProperties" []
  let interfaces ← orElse (entries decodeInterface) fs "interfaces" []
  let unions ← orElse (entries decodeUnion) fs "unions" []
  return { enums, entities, propertySets, interfaces, unions }

end Definition

end GraphSelection
