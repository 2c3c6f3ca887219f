import GraphSelection.Resolve.Aggregate
import GraphSelection.Resolve.Arrangement

/-!
Parts of a connection: its type names, the entries of its selection and its `where` argument.
-/
namespace GraphSelection.Resolve

open GraphSelection Plan

/-- Type names inside a connection. -/
structure ConnectionNames where
  connection : String
  edge : String
  /-- The start of the type names of aggregates. -/
  aggregate : String

def connectionNames (target : String) : Option Via → ConnectionNames
  | none => ⟨target ++ "Connection", target ++ "Edge", target⟩
  | some via => ⟨via.typeStem ++ "Connection", via.typeStem ++ "Relationship", via.typeStem⟩

/-- What the entries of a connection are about; composites have no aggregate. -/
structure ConnectionKeys where
  names : ConnectionNames
  properties : Option PropertySet
  aggregate : Option AggregateKeys

/-- How the selection under `node` is read, given its path. -/
abbrev NodeReader := Selection → String → Result (List Field)

def pageInfoField (path : String) (f : Selection) : Result PageInfoField :=
  match f.name with
  | "hasNextPage" => .ok (.hasNextPage f.key)
  | "hasPreviousPage" => .ok (.hasPreviousPage f.key)
  | "__typename" => .ok (.typename f.key)
  | "startCursor" | "endCursor" => .error (.argument (childPath path f.key) .cursorProjection)
  | other => .error (.unknownField "PageInfo" other)

def edgeField (properties : PropertySet) (f : Selection) : Result EdgeField :=
  if f.name = "__typename" then .ok (.typename f.key properties.name)
  else
    match properties.attribute? f.name with
    | some a => .ok (.stored f.key a)
    | none => .error (.unknownField properties.name f.name)

/-- What is selected of each edge; of entries that repeat, the last counts. -/
structure EdgeParts where
  node : Option (String × List Field) := none
  properties : Option (String × List EdgeField) := none
  typename : Option (String × String) := none

namespace ConnectionKeys

def edgePart (k : ConnectionKeys) (nodeFields : NodeReader) (path : String) (parts : EdgeParts)
    (f : Selection) : Result EdgeParts := do
  let here := childPath path f.key
  match f.name with
  | "node" =>
      let fields ← nodeFields f here
      return { parts with node := some (f.key, fields) }
  | "properties" =>
      match k.properties with
      | none => throw (.unknownField k.names.edge "properties")
      | some properties =>
          let fields ← f.selection.mapM (edgeField properties)
          return { parts with properties := some (f.key, fields) }
  | "__typename" => return { parts with typename := some (f.key, k.names.edge) }
  | "cursor" => throw (.argument here .cursorProjection)
  | other => throw (.unknownField k.names.edge other)

/-- One entry of a connection. -/
def item (k : ConnectionKeys) (nodeFields : NodeReader) (path : String) (f : Selection) :
    Result (ConnectionItem Field) := do
  let here := childPath path f.key
  match f.name with
  | "totalCount" => return .totalCount f.key
  | "__typename" => return .typename f.key k.names.connection
  | "pageInfo" =>
      let fields ← f.selection.mapM (pageInfoField here)
      return .pageInfo f.key fields
  | "edges" =>
      let parts ← f.selection.foldlM (k.edgePart nodeFields here) {}
      return .edges f.key parts.node parts.properties parts.typename
  | "aggregate" =>
      match k.aggregate with
      | none => throw (.aggregation here .compositeAggregate)
      | some keys =>
          let items ← keys.items f.selection here
          return .aggregate f.key items
  | other => throw (.unknownField k.names.connection other)

def items (k : ConnectionKeys) (nodeFields : NodeReader) (selection : List Selection)
    (path : String) : Result (List (ConnectionItem Field)) :=
  selection.mapM (k.item nodeFields path)

end ConnectionKeys

/-- The `where` argument of a connection. -/
structure ConnectionWhere where
  node : Option Placed := none
  edge : Option Placed := none

def wherePart (path : String) (parts : ConnectionWhere) (entry : String × Doc) :
    Result ConnectionWhere := do
  let (key, value) := entry
  let here := childPath path key
  if key ≠ "node" && key ≠ "edge" then throw (.filter here .connectionKeys)
  else if value.isNull then return parts
  else
    let members ← asRecord value here
    if key = "node" then return { parts with node := some ⟨members, here⟩ }
    else return { parts with edge := some ⟨members, here⟩ }

/-- At the root the argument is about the node; over a relationship it has a part for the node
and one for the edge. -/
def connectionWhere (args : Doc.Members) (isTraversed : Bool) (path : String) :
    Result ConnectionWhere := do
  let here := childPath path "where"
  match ← recordArg args "where" path with
  | none => return {}
  | some members =>
      if isTraversed then members.foldlM (wherePart here) {}
      else return { node := some ⟨members, here⟩ }

/-- The condition on the edges of a connection. -/
def edgeCondition (s : Setup) (via : Option Via) (properties : Option PropertySet)
    (edge : Option Placed) : Result (Option Condition) :=
  match edge with
  | none => .ok none
  | some placed =>
      match properties with
      | none => .error (.unknownField ((via.map (·.relationship.name)).getD "") "edge")
      | some properties => s.requested (.edge properties) (some placed.members) placed.path

end GraphSelection.Resolve
