import GraphSelection.Program.Scope

/-!
Branches of a composite, merged into one column and the columns of the sort keys.
-/
namespace GraphSelection.Program

open GraphSelection Cypher Plan

/-- One column name for each sort key. -/
def sortColumns : List SortKey → Build (List String)
  | [] => return []
  | _ :: rest => do
      let name ← fresh "sort"
      let names ← sortColumns rest
      return name :: names

/-- The columns in which a branch ends. -/
def branchColumns (body : List Clause) : List String :=
  ((body.getLast?.bind Clause.returned?).getD []).map (·.getD "<expression>")

def firstMismatch (expected : List String) : List (List Clause) → Option (List String)
  | [] => none
  | body :: rest =>
      if branchColumns body = expected then firstMismatch expected rest
      else some (branchColumns body)

/-- The union of the branches; without a branch there are no rows. -/
def unionCall (composite : String) (bodies : List (List Clause)) (column : String) :
    Except Failure Clause :=
  match bodies with
  | [] => .ok (.unwind (.list []) column)
  | first :: rest =>
      match firstMismatch (branchColumns first) rest with
      | some found => .error (.columns composite (branchColumns first) found)
      | none => .ok (.call [] [.union (first :: rest)])

/-- The first branch keeps the names of the scope, the others get new ones. -/
def branchContext (ctx : Context) (isFirst : Bool) : Build Context :=
  if isFirst then return ctx else ctx.freshSibling

/-- The order of the merged rows by the columns of the sort keys. -/
def mergedOrder (value : String → Expr) (sort : List SortKey) (columns : List String) :
    List (OrderKey Expr) :=
  (sort.zip columns).map fun (key, column) => ⟨value column, key.descending⟩

/-- The window of the merged rows. -/
def mergedWindow (column : String) (sort : List SortKey) (columns : List String) (page : Page) :
    Build (List Clause) :=
  if sort.isEmpty && page.isWhole then return []
  else do
    let b ← bounds page
    return [.carry (Column.var column :: columns.map Column.var) false
      (mergedOrder .var sort columns) b.skip b.limit none]

/-- The values of the sort keys of a branch, with the calls they need. -/
def branchKeys (ctx : Context) (sort : List SortKey) (columns : List String) :
    Build (List Clause × List (String × Expr)) := do
  let (calls, keys) ← sortValues ctx ((sort.zip columns).map Prod.fst)
  return (calls, columns.zip (keys.map OrderKey.expression))

end GraphSelection.Program
