import GraphSelection.Program.Edges
import GraphSelection.Program.Union

/-!
Fields and lookups as clauses. A field of a related scope becomes a call that returns one value,
which the projection of the node then names.
-/
namespace GraphSelection.Program

open GraphSelection Cypher Plan

/-- A stored value as a response shows it. -/
def shownValue (a : Attribute) (e : Expr) : Expr :=
  if a.isList then e
  else if a.kind.isTemporal then .apply "toString" [e]
  else if a.kind.isSpatial then
    .choice (.isNotNull e) (.map [("point", e), ("crs", .property e "crs")]) .null
  else e

/-- A value that is shown under the name of its property needs no expression. -/
def storedItem (name key : String) (a : Attribute) : MapItem Expr :=
  let isConverted := !a.isList && (a.kind.isTemporal || a.kind.isSpatial)
  if key = a.stored && !isConverted then .own key
  else .entry key (shownValue a (.propertyOf name a.stored))

def edgeItem (name : String) : EdgeField → MapItem Expr
  | .stored key a => storedItem name key a
  | .typename key typeName => .entry key (.string typeName)

/-- The selected properties of a relationship. -/
def edgeProjection (ctx : Context) (fields : List EdgeField) : Except Failure Expr := do
  let edge ← ctx.edge
  return .projection edge (fields.map (edgeItem edge))

/-- The call of a related scope: its names are drawn, and its result comes back in a variable. -/
def nestedCall (ctx : Context) (body : Context → Build (List Clause)) :
    Build (List Clause × Expr) := do
  let edge ← fresh "this"
  let node ← fresh "this"
  let result ← fresh "var"
  let clauses ← body (ctx.enter node (some edge) result)
  return ([.call [ctx.subject] clauses], .var result)

/-- A read ends in the node at the root, and in a collection of the nodes elsewhere. -/
def readResult (ctx : Context) (scope : Scope) (projection : Expr) : List Clause :=
  match scope.relationship with
  | none => [.give projection ctx.result]
  | some r =>
      [.carryOnly [Column.named projection ctx.subject],
       .give (collected (.var ctx.subject) r.isList) ctx.result]

def compositeResult (ctx : Context) (relationship : Option Relationship) (column : String) :
    Clause :=
  match relationship with
  | none => .give (.var column) ctx.result
  | some r => .give (collected (.var column) r.isList) ctx.result

/-- What an edge of the page shows, collected. -/
def edgesResult (entries : List (String × Expr)) (typename : Option (String × String))
    (result : String) : Clause :=
  .give (.apply "collect"
    [.map (entries ++ (typename.map fun (key, name) => (key, Expr.string name)).toList)]) result

/-- The page of merged edges; their maps hold the projections already. -/
def mergedEdgesCall (l : EdgeList) (sort : List SortKey) (columns : List String)
    (node : Option String) (properties : Option String) (typename : Option (String × String)) :
    Build (List Clause × Expr) := do
  let result ← fresh "var"
  let edge ← fresh "edge"
  let order := mergedOrder (Expr.propertyOf edge) sort columns
  let window : List Clause :=
    if order.isEmpty && l.bounds.isWhole then []
    else [.carry [Column.var edge] false order l.bounds.skip l.bounds.limit none]
  let entries :=
    (node.map fun key => (key, Expr.propertyOf edge "node")).toList ++
      (properties.map fun key => (key, Expr.propertyOf edge "properties")).toList
  return ([.call [l.edges]
      (.unwind (.var l.edges) edge :: window ++ [edgesResult entries typename result])],
    .var result)

/-- The entries of a connection over a composite, whose edges are projected in the branches. -/
def mergedEntries {φ : Type} (l : EdgeList) (composite : String) (sort : List SortKey)
    (columns : List String) :
    List (ConnectionItem φ) → Build (List Clause × List (String × Expr))
  | [] => return ([], [])
  | item :: rest => do
      let (calls, e) ← (match item with
        | .edges _ node properties typename =>
            mergedEdgesCall l sort columns (node.map Prod.fst) (properties.map Prod.fst) typename
        | .aggregate key _ =>
            fail (.aggregation (composite ++ "." ++ key) .compositeConnectionAggregate)
        | .totalCount _ => pure ([], .var l.total)
        | .pageInfo _ fields => pure ([], .map (fields.map l.pageInfo))
        | .typename _ typeName => pure ([], .string typeName) : Build (List Clause × Expr))
      let (more, entries) ← mergedEntries l composite sort columns rest
      return (calls ++ more, (item.key, e) :: entries)

mutual
/-- The entry of a field in the projection of the node, and the calls it reads from. -/
def Field.item (ctx : Context) : Field → Build (List Clause × MapItem Expr)
  | .stored key a => return ([], storedItem ctx.subject key a)
  | .typename key typeName => return ([], .entry key (.string typeName))
  | .computed key a => do
      let name ← fresh "var"
      let call ← computedCall ctx a name
      return ([call], .entry key (.var name))
  | .lookup key l => do
      let (calls, e) ← nestedCall ctx fun inner => Field.lookupClauses inner l
      return (calls, .entry key e)
  | .aggregate key a => do
      let (calls, e) ← nestedCall ctx fun inner => aggregateClauses inner a
      return (calls, .entry key e)
def Field.items (ctx : Context) : List Field → Build (List Clause × List (MapItem Expr))
  | [] => return ([], [])
  | f :: rest => do
      let (calls, item) ← Field.item ctx f
      let (more, items) ← Field.items ctx rest
      return (calls ++ more, item :: items)
def Field.lookupClauses (ctx : Context) : Lookup Field → Build (List Clause)
  | .read ⟨scope, fields, sort, page⟩ => do
      let found ← distinctNodes ctx scope
      let window ← arranged ctx sort page
      let (calls, items) ← Field.items ctx fields
      return found ++ window ++ calls ++ readResult ctx scope (.projection ctx.subject items)
  | .connection ⟨scope, sort, page, items⟩ => do
      let found ← scopeMatch ctx scope
      let (collect, l) ← edgeList (edgeMap ctx) items page
      let (calls, entries) ← Field.entries ctx l sort items
      return found ++ collect ++ calls ++ [.give (.map entries) ctx.result]
  | .composite ⟨composite, relationship, branches, sort, page⟩ => do
      let column ← fresh "var"
      let columns ← sortColumns sort
      let bodies ← Field.branches ctx column columns true branches
      let union ← (unionCall composite.name bodies column : Except Failure Clause)
      let window ← mergedWindow column sort columns page
      return union :: window ++ [compositeResult ctx relationship column]
  | .compositeConnection ⟨composite, _, branches, sort, page, items⟩ => do
      let column ← fresh "var"
      let columns ← sortColumns sort
      let bodies ← Field.connectionBranches ctx column columns true branches
      let union ← (unionCall composite.name bodies column : Except Failure Clause)
      let (collect, l) ← edgeList (.var column) items page
      let (calls, entries) ← mergedEntries l composite.name sort columns items
      return union :: collect ++ calls ++ [.give (.map entries) ctx.result]
/-- The entries of a connection over one entity. -/
def Field.entries (ctx : Context) (l : EdgeList) (sort : List SortKey) :
    List (ConnectionItem Field) → Build (List Clause × List (String × Expr))
  | [] => return ([], [])
  | .edges key node properties typename :: rest => do
      let result ← fresh "var"
      let edge ← fresh "edge"
      let window ← orderedWindow ctx sort l.bounds
      let (nodeCalls, nodeEntries) ← Field.nodeEntry ctx node
      let propertyEntries ← (match properties with
        | none => pure []
        | some (key, fields) => do
            let e ← edgeProjection ctx fields
            pure [(key, e)] : Except Failure (List (String × Expr)))
      let call : Clause := .call [l.edges]
        (unpackEdge ctx l.edges edge ++ window ++ nodeCalls ++
          [edgesResult (nodeEntries ++ propertyEntries) typename result])
      let (more, entries) ← Field.entries ctx l sort rest
      return (call :: more, (key, .var result) :: entries)
  | .aggregate key items :: rest => do
      let (calls, group) ← aggregateEntries (edgeMeasureCall ctx l.edges) items
      let (more, entries) ← Field.entries ctx l sort rest
      return (calls ++ more, (key, .map group) :: entries)
  | .totalCount key :: rest => do
      let (more, entries) ← Field.entries ctx l sort rest
      return (more, (key, .var l.total) :: entries)
  | .pageInfo key fields :: rest => do
      let (more, entries) ← Field.entries ctx l sort rest
      return (more, (key, .map (fields.map l.pageInfo)) :: entries)
  | .typename key typeName :: rest => do
      let (more, entries) ← Field.entries ctx l sort rest
      return (more, (key, .string typeName) :: entries)
def Field.nodeEntry (ctx : Context) :
    Option (String × List Field) → Build (List Clause × List (String × Expr))
  | none => return ([], [])
  | some (key, fields) => do
      let (calls, items) ← Field.items ctx fields
      return (calls, [(key, .projection ctx.subject items)])
/-- The branches of a composite read; the sort keys go in columns of their own. -/
def Field.branches (ctx : Context) (column : String) (columns : List String) (isFirst : Bool) :
    List (Read Field) → Build (List (List Clause))
  | [] => return []
  | ⟨scope, fields, sort, _⟩ :: rest => do
      let own ← branchContext ctx isFirst
      let start ← importParent own
      let found ← distinctNodes own scope
      let (calls, items) ← Field.items own fields
      let (keyCalls, keys) ← branchKeys own sort columns
      let body := start ++ found ++ calls ++ keyCalls ++
        [.giveAll (Column.named (.projection own.subject items) column ::
          keys.map fun (name, e) => Column.named e name)]
      let bodies ← Field.branches ctx column columns false rest
      return body :: bodies
/-- The branches of a composite connection; the sort keys go along in the map of the edge. -/
def Field.connectionBranches (ctx : Context) (column : String) (columns : List String)
    (isFirst : Bool) : List (ConnectionBranch Field) → Build (List (List Clause))
  | [] => return []
  | ⟨⟨scope, fields, sort, _⟩, edgeFields⟩ :: rest => do
      let own ← branchContext ctx isFirst
      let start ← importParent own
      let found ← scopeMatch own scope
      let (calls, items) ← Field.items own fields
      let properties ← (match own.relationship with
        | none => pure []
        | some _ => do
            let e ← edgeProjection own edgeFields
            pure [("properties", e)] : Except Failure (List (String × Expr)))
      let (keyCalls, keys) ← branchKeys own sort columns
      let body := start ++ found ++ calls ++ keyCalls ++
        [.give (.map (("node", .projection own.subject items) :: properties ++ keys)) column]
      let bodies ← Field.connectionBranches ctx column columns false rest
      return body :: bodies
end

end GraphSelection.Program
