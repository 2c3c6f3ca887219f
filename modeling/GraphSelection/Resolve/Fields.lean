import GraphSelection.Resolve.Connection

/-!
Fields and lookups out of selections. One level of a selection is read with the level below as a
parameter; selections nest only finitely deep, so the level at the height of a selection reads all
of it. At height zero nothing is selected.
-/
namespace GraphSelection.Resolve

open GraphSelection Plan

/-- Of selections with one response key the first counts. -/
def firstOfKey (selections : List Selection) : List Selection :=
  selections.foldl
    (fun kept f => if kept.any (·.key == f.key) then kept else kept ++ [f]) []

/-- What is selected of one type: the common fields and its own fragment. -/
def effective (typeName : String) (selection : List Selection) (on : Fragments) :
    List Selection :=
  firstOfKey (selection ++ (on.get? typeName).getD [])

def heightOf (selection : List Selection) (on : Fragments) : Nat :=
  max (Selection.listHeight selection) (Selection.fragmentsHeight on)

/-- The arguments of a lookup and what it selects. -/
structure Asked where
  args : Doc.Members
  selection : List Selection
  on : Fragments

def Asked.ofField (f : Selection) : Asked := ⟨f.args, f.selection, f.on⟩

def Asked.fieldsFor (q : Asked) (e : Entity) : List Selection := effective e.name q.selection q.on

/-- A reader of selections over an entity. -/
abbrev FieldReader := Entity → List Selection → String → Result (List Field)

/-- Every branch of a composite tells its type. -/
def withTypename (e : Entity) (fields : List Field) : List Field :=
  if fields.any (·.key == "__typename") then fields
  else fields ++ [.typename "__typename" e.name]

/-- A result is a list unless a relationship leads to one node. -/
def givesList (via : Option Via) : Bool := via.all (·.relationship.isList)

namespace Setup

/-- A read of an entity under its `where` argument and the rules that guard it. -/
def readScope (s : Setup) (e : Entity) (via : Option Via) (members : Option Doc.Members)
    (fields : List Field) (arrangement : Arrangement) (path : String) : Result (Read Field) := do
  let asked ← s.whereCondition e members path
  let scope ← guardedScope s e (via.map Via.relationship) asked.toList (Field.attributes fields)
    .read
  return { scope, fields, sort := arrangement.sort, page := arrangement.page }

def entityRead (s : Setup) (below : FieldReader) (e : Entity) (via : Option Via) (q : Asked)
    (path : String) : Result (Read Field) := do
  let fields ← below e (q.fieldsFor e) path
  let arrangement ← listArrangement s e.attributes q.args e.pages (givesList via) path
  let members ← recordArg q.args "where" path
  s.readScope e via members fields arrangement path

/-- A branch of a composite is sorted by its own attributes; pages are cut after the merge. -/
def branch (s : Setup) (e : Entity) (via : Option Via) (rest : Option Doc.Members)
    (fields : List Field) (sort : List SortKey) (path : String) : Result (Read Field) := do
  let sort ← sort.mapM (·.forMember e)
  s.readScope e via rest (withTypename e fields) { sort } path

def compositeRead (s : Setup) (below : FieldReader) (c : Composite) (via : Option Via)
    (q : Asked) (path : String) : Result (CompositeRead Field) := do
  let members ← recordArg q.args "where" path
  let kept ← narrow s.schema c members (childPath path "where")
  let arrangement ← listArrangement s c.sharedAttributes q.args none (givesList via) path
  let branches ← kept.mapM fun (e, rest) => do
    let fields ← below e (q.fieldsFor e) path
    s.branch e via rest fields arrangement.sort path
  return { composite := c
           relationship := via.map Via.relationship
           branches
           sort := arrangement.sort
           page := arrangement.page }

/-- The attributes that the edges of a connection read of their nodes. -/
def edgeNodeAttributes (items : List (ConnectionItem Field)) : List Attribute :=
  items.flatMap fun
    | .edges _ (some (_, fields)) _ _ => Field.attributes fields
    | _ => []

def viaProperties (s : Setup) (via : Option Via) : Option PropertySet :=
  via.bind fun v => s.schema.propertiesOf v.relationship

def entityConnection (s : Setup) (below : FieldReader) (e : Entity) (via : Option Via)
    (q : Asked) (path : String) : Result (Connection Field) := do
  let properties := s.viaProperties via
  let names := connectionNames e.name via
  let aggregate : AggregateKeys :=
    { target := e
      properties
      isDirect := false
      isTraversed := via.isSome
      typeStem := names.aggregate }
  let keys : ConnectionKeys := { names, properties, aggregate := some aggregate }
  let items ← keys.items
    (fun f here => below e (effective e.name f.selection f.on) here) q.selection path
  let parts ← connectionWhere q.args via.isSome path
  let node ← (match parts.node with
    | none => .ok none
    | some placed => s.requested (.node e) (some placed.members) placed.path :
      Result (Option Condition))
  let edge ← edgeCondition s via properties parts.edge
  let scope ← guardedScope s e (via.map Via.relationship) (node.toList ++ edge.toList)
    (edgeNodeAttributes items) .read
  let arrangement ← connectionArrangement s e.attributes (properties.map PropertySet.attributes)
    q.args e.pages path
  return { scope, sort := arrangement.sort, page := arrangement.page, items }

/-- The selections under `node` of all edges. -/
def nodeSelections (selection : List Selection) : List Selection :=
  (selection.filter (·.name == "edges")).flatMap fun edges =>
    edges.selection.filter (·.name == "node")

/-- What all node selections together select of one type. -/
def mergedFor (e : Entity) (nodes : List Selection) : List Selection :=
  firstOfKey (nodes.flatMap fun node => effective e.name node.selection node.on)

/-- The relationship properties that the edges of a connection read, each response key once. -/
def edgeFieldsOf (items : List (ConnectionItem Field)) : List EdgeField :=
  let all := items.flatMap fun
    | .edges _ _ (some (_, fields)) _ => fields
    | _ => []
  all.foldl (fun kept f => if kept.any (·.key == f.key) then kept else kept ++ [f]) []

def compositeConnection (s : Setup) (below : FieldReader) (c : Composite) (via : Option Via)
    (q : Asked) (path : String) : Result (CompositeConnection Field) := do
  let properties := s.viaProperties via
  let keys : ConnectionKeys :=
    { names := connectionNames c.name via, properties, aggregate := none }
  let items ← keys.items (fun _ _ => .ok []) q.selection path
  let parts ← connectionWhere q.args via.isSome path
  let nodePath := (parts.node.map Placed.path).getD (childPath path "where")
  let kept ← narrow s.schema c (parts.node.map Placed.members) nodePath
  let edge ← edgeCondition s via properties parts.edge
  let arrangement ← connectionArrangement s c.sharedAttributes
    (properties.map PropertySet.attributes) q.args none path
  let edgeFields := edgeFieldsOf items
  let branches ← kept.mapM fun (e, rest) => do
    let fields ← below e (mergedFor e (nodeSelections q.selection)) (childPath path "edges.node")
    let read ← s.branch e via rest fields arrangement.sort nodePath
    let filter := Condition.allOf (read.scope.filter.toList ++ edge.toList)
    pure { read := { read with scope := { read.scope with filter } }, edgeFields }
  return { composite := c
           relationship := via.map Via.relationship
           branches
           sort := arrangement.sort
           page := arrangement.page
           items }

/-- A list of what a target holds. -/
def readOf (s : Setup) (below : FieldReader) (target : Target) (via : Option Via) (q : Asked)
    (path : String) : Result (Lookup Field) :=
  match target with
  | .entity e => (s.entityRead below e via q path).map .read
  | .composite c => (s.compositeRead below c via q path).map .composite

/-- A connection over what a target holds. -/
def connectionOf (s : Setup) (below : FieldReader) (target : Target) (via : Option Via)
    (q : Asked) (path : String) : Result (Lookup Field) :=
  match target with
  | .entity e => (s.entityConnection below e via q path).map .connection
  | .composite c => (s.compositeConnection below c via q path).map .compositeConnection

/-- A selected name that is no attribute: a relationship, its connection or its aggregate. -/
def relationshipField (s : Setup) (below : FieldReader) (e : Entity) (path : String)
    (f : Selection) : Result Field := do
  let here := childPath path f.key
  match e.relationship? f.name with
  | some relationship =>
      let target ← ofSchema (s.schema.targetOf relationship)
      let found ← s.readOf below target (some ⟨e.name, relationship⟩) (.ofField f) here
      return .lookup f.key found
  | none =>
      match (Text.dropEnd? f.name "Connection").bind e.relationship? with
      | some relationship =>
          let target ← ofSchema (s.schema.targetOf relationship)
          let found ← s.connectionOf below target (some ⟨e.name, relationship⟩) (.ofField f) here
          return .lookup f.key found
      | none =>
          match (Text.dropEnd? f.name "Aggregate").bind e.relationship? with
          | some relationship =>
              let found ← relatedAggregate s ⟨e.name, relationship⟩ f.args f.selection here
              return .aggregate f.key found
          | none => throw (.unknownField e.name f.name)

/-- One selected field of an entity. -/
def field (s : Setup) (below : FieldReader) (e : Entity) (path : String) (f : Selection) :
    Result Field :=
  if f.name = "__typename" then .ok (.typename f.key e.name)
  else
    match e.attribute? f.name with
    | some a => .ok (if a.isComputed then .computed f.key a else .stored f.key a)
    | none => s.relationshipField below e path f

/-- The fields of selections that nest at most this deep. -/
def fieldsAt (s : Setup) : Nat → FieldReader
  | 0, _, _, _ => .ok []
  | depth + 1, e, selection, path => selection.mapM (s.field (s.fieldsAt depth) e path)

/-- A reader for everything below an entry of a request. -/
def reader (s : Setup) (selection : List Selection) (on : Fragments) : FieldReader :=
  s.fieldsAt (heightOf selection on)

end Setup

end GraphSelection.Resolve
