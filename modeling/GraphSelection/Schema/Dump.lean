import GraphSelection.Schema.Model

/-!
A schema as a document.
-/
namespace GraphSelection

def Computation.encode (c : Computation) : Doc :=
  .record [("statement", .text c.statement), ("column", .text c.column)]

def Attribute.encode (a : Attribute) : Doc :=
  .record
    [("name", .text a.name),
     ("database_alias", Doc.ofOption .text a.storedAs),
     ("kind", .text a.kind.name),
     ("is_list", .bool a.isList),
     ("nullable", .bool a.nullable),
     ("is_unique", .bool a.isUnique),
     ("computed", Doc.ofOption Computation.encode a.computation),
     ("authorization", .list (a.rules.map Rule.encode))]

def Relationship.encode (r : Relationship) : Doc :=
  .record
    [("name", .text r.name),
     ("graph_type", .text r.graphType),
     ("direction", .text r.direction.name),
     ("target", .text r.target),
     ("is_list", .bool r.isList),
     ("properties", Doc.ofOption .text r.properties),
     ("nested_operations", Doc.ofTexts (r.nestedActions.map NestedAction.keyword))]

def PagePolicy.encode (p : PagePolicy) : Doc :=
  .record [("default", Doc.ofOption Doc.ofCount p.default), ("max", Doc.ofOption Doc.ofCount p.max)]

def encodeAttributes (attributes : Entries Attribute) : Doc :=
  .record (attributes.mapValues fun _ a => a.encode)

def encodeRelationships (relationships : Entries Relationship) : Doc :=
  .record (relationships.mapValues fun _ r => r.encode)

def Entity.encode (e : Entity) : Doc :=
  .record
    [("name", .text e.name),
     ("labels", Doc.ofTexts e.labels),
     ("attributes", encodeAttributes e.attributes),
     ("relationships", encodeRelationships e.relationships),
     ("authorization", .list (e.rules.map Rule.encode)),
     ("limit", Doc.ofOption PagePolicy.encode e.pages)]

def CompositeKind.name : CompositeKind → String
  | .interface => "interface"
  | .union => "union"

def Composite.encode (c : Composite) : Doc :=
  .record
    [("name", .text c.name),
     ("kind", .text c.kind.name),
     ("constituents", Doc.ofTexts c.constituents),
     ("shared_attributes", encodeAttributes c.sharedAttributes),
     ("relationships", encodeRelationships c.relationships)]

def PropertySet.encode (p : PropertySet) : Doc :=
  .record [("name", .text p.name), ("attributes", encodeAttributes p.attributes)]

/-- Property sets come in the order of their names, all else as declared. -/
def Schema.encode (s : Schema) : Doc :=
  .record
    [("entities", .record (s.entities.mapValues fun _ e => e.encode)),
     ("composites", .record (s.composites.mapValues fun _ c => c.encode)),
     ("relationship_properties", .record
       ((s.propertySets.mergeSort fun a b => decide (a.1 ≤ b.1)).map fun (k, p) => (k, p.encode)))]

end GraphSelection
