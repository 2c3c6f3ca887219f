import GraphSelection.Plan.Ordering
import GraphSelection.Program.Computed

/-!
Orders and pages as clauses.
-/
namespace GraphSelection.Program

open GraphSelection Cypher Plan

/-- The bounds of a page as expressions. -/
structure Bounds where
  skip : Option Expr := none
  limit : Option Expr := none

def Bounds.isWhole (b : Bounds) : Bool := b.skip.isNone && b.limit.isNone

def countParam : Option Nat → Build (Option Expr)
  | none => return none
  | some n => do
      return some (← param (Doc.ofCount n))

/-- Parameters for the bounds of a page, the skip first. -/
def bounds (page : Page) : Build Bounds := do
  let skip ← countParam page.skip
  let limit ← countParam page.limit
  return { skip, limit }

/-- What a sort key orders by, after the call it may need. -/
def sortValue (ctx : Context) (key : SortKey) : Build (List Clause × Expr) :=
  match key.target with
  | .node a => return ([], .propertyOf ctx.subject a.stored)
  | .edge a => do
      let edge ← (ctx.edge : Except Failure String)
      return ([], .propertyOf edge a.stored)
  | .computed a => do
      let name ← fresh "var"
      let call ← computedCall ctx a name
      return ([call], .var name)

def sortValues (ctx : Context) : List SortKey → Build (List Clause × List (OrderKey Expr))
  | [] => return ([], [])
  | key :: rest => do
      let (calls, e) ← sortValue ctx key
      let (more, keys) ← sortValues ctx rest
      return (calls ++ more, ⟨e, key.descending⟩ :: keys)

/-- The window that an order and bounds select; nothing is written for the whole set as it is. -/
def orderedWindow (ctx : Context) (sort : List SortKey) (b : Bounds) : Build (List Clause) :=
  if sort.isEmpty && b.isWhole then return []
  else do
    let (calls, keys) ← sortValues ctx sort
    return calls ++ [.window keys b.skip b.limit]

/-- The window of a page. -/
def arranged (ctx : Context) (sort : List SortKey) (page : Page) : Build (List Clause) :=
  if sort.isEmpty && page.isWhole then return []
  else do
    let b ← bounds page
    orderedWindow ctx sort b

end GraphSelection.Program
