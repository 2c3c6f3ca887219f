import GraphSelection.Plan.Field
import GraphSelection.Program.Condition
import GraphSelection.Program.Window

/-!
The nodes of a scope: matched, filtered and validated.
-/
namespace GraphSelection.Program

open GraphSelection Cypher Plan

/-- The pattern of a scope: its node, reached from the scope around over its relationship. -/
def scopePattern (ctx : Context) (scope : Scope) : Except Failure Pattern :=
  let node := NodePattern.named ctx.subject scope.entity.labels
  match scope.relationship with
  | none => .ok (Pattern.node node)
  | some r => do
      let parent ← ctx.parent
      let edge ← ctx.edge
      return traversal parent r edge node

def scopeMatch (ctx : Context) (scope : Scope) : Build (List Clause) := do
  let pattern ← (scopePattern ctx scope : Except Failure Pattern)
  let found ← filteredMatch pattern scope.filter ctx
  let checks ← validated ctx scope.validations
  return found ++ checks

/-- Each node once, however many relationships lead to it. -/
def distinctNodes (ctx : Context) (scope : Scope) : Build (List Clause) := do
  let clauses ← scopeMatch ctx scope
  match scope.relationship with
  | none => return clauses
  | some _ => return clauses ++ [.carry [Column.var ctx.subject] true [] none none none]

/-- A branch inside a nested scope starts with the node of the scope around. -/
def importParent (ctx : Context) : Build (List Clause) :=
  if ctx.isRoot then return []
  else do
    let parent ← (ctx.parent : Except Failure String)
    return [.carryOnly [Column.var parent]]

/-- The call of one measure over the nodes of a scope. -/
def measureCall (ctx : Context) (scope : Scope) (m : Measure) (result : String) :
    Build Clause := do
  let imports ← (match scope.relationship with
    | none => pure []
    | some _ => do
        let parent ← ctx.parent
        pure [parent] : Except Failure (List String))
  let found ← scopeMatch ctx scope
  let (before, reduced) ← (measured m ctx.subject ctx.relationship : Except Failure Reduced)
  return .call imports (found ++ before ++ [.give reduced result])

mutual
/-- The entry of an aggregate item; each measure has a call of its own. -/
def aggregateEntry (call : Measure → String → Build Clause) :
    AggregateItem → Build (List Clause × (String × Expr))
  | .measure key m => do
      let name ← fresh "var"
      let clause ← call m name
      return ([clause], (key, .var name))
  | .group key items => do
      let (calls, entries) ← aggregateEntries call items
      return (calls, (key, .map entries))
  | .typename key typeName => return ([], (key, .string typeName))
def aggregateEntries (call : Measure → String → Build Clause) :
    List AggregateItem → Build (List Clause × List (String × Expr))
  | [] => return ([], [])
  | item :: rest => do
      let (calls, entry) ← aggregateEntry call item
      let (more, entries) ← aggregateEntries call rest
      return (calls ++ more, entry :: entries)
end

def aggregateClauses (ctx : Context) (a : Aggregate) : Build (List Clause) := do
  let (calls, entries) ← aggregateEntries (measureCall ctx a.scope) a.items
  return calls ++ [.give (.map entries) ctx.result]

end GraphSelection.Program
