import GraphSelection.Plan.Mutation
import GraphSelection.Program.Fields

/-!
Changes as clauses. A nested change is a call that returns a count, so that it always leaves the
row of its parent in place, whether it finds something to change or not.
-/
namespace GraphSelection.Program

open GraphSelection Cypher Plan

/-- A value is stored as its kind says; lists are stored as they are given. -/
def assignment (name : String) (a : Assignment) : Build (Expr × Expr) := do
  let kind := if a.target.isList then none else some a.target.kind
  let value ← typedParam a.value kind
  return (.propertyOf name a.target.stored, value)

def assignmentList (name : String) : List Assignment → Build (List (Expr × Expr))
  | [] => return []
  | a :: rest => do
      let x ← assignment name a
      let xs ← assignmentList name rest
      return x :: xs

/-- All assignments in one clause; no clause when nothing is written. -/
def assigned (name : String) (assignments : List Assignment) : Build (List Clause) := do
  let pairs ← assignmentList name assignments
  return if pairs.isEmpty then [] else [.set pairs]

/-- The nodes that a relationship leads to, narrowed by a condition. -/
def linkedNodes (ctx child : Context) (link : Link) (filter : Option Condition) :
    Build (List Clause) := do
  let edge ← (child.edge : Except Failure String)
  filteredMatch
    (traversal ctx.subject link.relationship edge
      (NodePattern.named child.subject link.target.labels))
    filter child

/-- Stands at the end of every nested change. -/
def counted (ctx : Context) (body : List Clause) (result : String) : Clause :=
  .call [ctx.subject] (body ++ [.give (.apply "count" [.star]) result])

mutual
def Mutation.clause (ctx : Context) : Mutation → Build Clause
  | .create link ⟨assignments, nested, validations⟩ edgeAssignments => do
      let edge ← fresh "this"
      let node ← fresh "this"
      let result ← fresh "var"
      let child := ctx.enter node (some edge) result
      let own ← assigned node assignments
      let onEdge ← assigned edge edgeAssignments
      let written := .create (labelled node link.target) :: own ++
        .create (connection ctx.subject link.relationship edge node) :: onEdge
      let written ← Mutation.after child written nested
      let checks ← validated child validations
      return counted ctx (andThen written checks) result
  | .connect link filter edgeAssignments validations => do
      let edge ← fresh "this"
      let node ← fresh "this"
      let result ← fresh "var"
      let child := ctx.enter node (some edge) result
      let found ← filteredMatch (labelled node link.target) filter child
      let onEdge ← assigned edge edgeAssignments
      let checks ← validated child validations
      let written := found ++ .merge (connection ctx.subject link.relationship edge node) :: onEdge
      return counted ctx (andThen written checks) result
  | .disconnect link filter validations => do
      let edge ← fresh "this"
      let node ← fresh "this"
      let result ← fresh "var"
      let child := ctx.enter node (some edge) result
      let found ← linkedNodes ctx child link filter
      let checks ← validated child validations
      return counted ctx (found ++ checks ++ [.delete false [edge]]) result
  | .update link filter before nodeAssignments edgeAssignments after => do
      let edge ← fresh "this"
      let node ← fresh "this"
      let result ← fresh "var"
      let child := ctx.enter node (some edge) result
      let found ← linkedNodes ctx child link filter
      let first ← validated child before
      let own ← assigned node nodeAssignments
      let onEdge ← assigned edge edgeAssignments
      let last ← validated child after
      return counted ctx (andThen (found ++ first ++ own ++ onEdge) last) result
  | .delete link filter before nested => do
      let edge ← fresh "this"
      let node ← fresh "this"
      let result ← fresh "var"
      let child := ctx.enter node (some edge) result
      let found ← linkedNodes ctx child link filter
      let first ← validated child before
      let clauses ← Mutation.after child (found ++ first) nested
      return counted ctx (andThen clauses [.delete true [node]]) result
/-- Nested changes after what has been written so far. -/
def Mutation.after (ctx : Context) (before : List Clause) : List Mutation → Build (List Clause)
  | [] => return before
  | m :: rest => do
      let clause ← Mutation.clause ctx m
      Mutation.after ctx (andThen before [clause]) rest
end

/-- A new node with its properties, nested changes and what must hold afterwards. -/
def newNode (ctx : Context) (e : Entity) (n : NewNode Mutation) : Build (List Clause) := do
  let own ← assigned ctx.subject n.assignments
  let written ← Mutation.after ctx (.create (labelled ctx.subject e) :: own) n.nested
  let checks ← validated ctx n.validations
  return andThen written checks

/-- One call for each new node; the first keeps the names of the scope. -/
def newNodes (ctx : Context) (e : Entity) (isFirst : Bool) :
    List (NewNode Mutation) → Build (List Clause × List Context)
  | [] => return ([], [])
  | n :: rest => do
      let own ← branchContext ctx isFirst
      let body ← newNode own e n
      let (calls, contexts) ← newNodes ctx e false rest
      return (.call [] (body ++ [.giveAll [Column.var own.subject]]) :: calls, own :: contexts)

def projections (fields : List Field) : List Context → Build (List Clause × List Expr)
  | [] => return ([], [])
  | ctx :: rest => do
      let (calls, items) ← Field.items ctx fields
      let (more, es) ← projections fields rest
      return (calls ++ more, .projection ctx.subject items :: es)

def createClauses (ctx : Context) (c : Create) : Build (List Clause) := do
  let (calls, contexts) ← newNodes ctx c.entity true c.nodes
  let (more, es) ← projections c.fields contexts
  return calls ++ more ++ [.give (.list es) ctx.result]

def updateClauses (ctx : Context) (u : Update) : Build (List Clause) := do
  let found ← filteredMatch (labelled ctx.subject u.entity) u.filter ctx
  let first ← validated ctx u.before
  let own ← assigned ctx.subject u.assignments
  let written ← Mutation.after ctx (found ++ first ++ own) u.nested
  let last ← validated ctx u.after
  let (calls, items) ← Field.items ctx u.fields
  return andThen (andThen written last) calls ++
    [.give (.apply "collect" [.distinct (.projection ctx.subject items)]) ctx.result]

def deleteClauses (ctx : Context) (d : Delete) : Build (List Clause) := do
  let found ← filteredMatch (labelled ctx.subject d.entity) d.filter ctx
  let first ← validated ctx d.before
  let clauses ← Mutation.after ctx (found ++ first) d.nested
  return andThen clauses [.delete true [ctx.subject]]

def operationClauses (ctx : Context) : Operation → Build (List Clause)
  | .lookup l => Field.lookupClauses ctx l
  | .aggregate a => aggregateClauses ctx a
  | .create c => createClauses ctx c
  | .update u => updateClauses ctx u
  | .delete d => deleteClauses ctx d

end GraphSelection.Program
