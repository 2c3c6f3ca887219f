import GraphSelection.Program.Scope

/-!
Connections: the edges of a scope collected into a list, its length, and what is read off them.
-/
namespace GraphSelection.Program

open GraphSelection Cypher Plan

/-- The names of the collected edges and of their number, and the bounds of the page. -/
structure EdgeList where
  edges : String
  total : String
  bounds : Bounds

/-- Collects what stands for one edge, and counts. -/
def collectEdges (edge : Expr) (edges total : String) : List Clause :=
  [.carryOnly [Column.named (.apply "collect" [edge]) edges],
   .carryOnly [Column.var edges, Column.named (.apply "size" [.var edges]) total]]

/-- The edge list of a connection. Page bounds are made only for items that use the page. -/
def edgeList {φ : Type} (edge : Expr) (items : List (ConnectionItem φ)) (page : Page) :
    Build (List Clause × EdgeList) := do
  let edges ← fresh "edges"
  let total ← fresh "totalCount"
  let b ← if items.any ConnectionItem.needsPage then bounds page else pure {}
  return (collectEdges edge edges total, { edges, total, bounds := b })

namespace EdgeList

/-- The page ends before the last edge. -/
def hasNextPage (l : EdgeList) : Expr :=
  match l.bounds.limit with
  | none => .bool false
  | some limit =>
      let stop := match l.bounds.skip with
        | some skip => .binary skip .plus limit
        | none => limit
      .binary stop .less (.var l.total)

def hasPreviousPage (l : EdgeList) : Expr :=
  match l.bounds.skip with
  | some skip => .binary skip .greater (.int 0)
  | none => .bool false

def pageInfo (l : EdgeList) : PageInfoField → String × Expr
  | .hasNextPage key => (key, l.hasNextPage)
  | .hasPreviousPage key => (key, l.hasPreviousPage)
  | .typename key => (key, .string "PageInfo")

end EdgeList

/-- A node with the relationship to it, as a map. -/
def edgeMap (ctx : Context) : Expr :=
  .map (("node", .var ctx.subject) ::
    (ctx.relationship.map fun r => ("relationship", Expr.var r)).toList)

/-- Takes an edge of the list apart again. -/
def unpackEdge (ctx : Context) (edges edge : String) : List Clause :=
  [.unwind (.var edges) edge,
   .carryOnly (Column.named (.propertyOf edge "node") ctx.subject ::
     (ctx.relationship.map fun r => Column.named (.propertyOf edge "relationship") r).toList)]

/-- The call of one measure over the collected edges. -/
def edgeMeasureCall (ctx : Context) (edges : String) (m : Measure) (result : String) :
    Build Clause := do
  let edge ← fresh "edge"
  let (before, reduced) ← (measured m ctx.subject ctx.relationship : Except Failure Reduced)
  return .call [edges] (unpackEdge ctx edges edge ++ before ++ [.give reduced result])

end GraphSelection.Program
