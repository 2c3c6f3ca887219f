import GraphSelection.Program.Supply

/-!
Where a part of a program stands: the node it is about, the relationship that led there, the nodes
of the scopes around it and the column in which it returns its result.
-/
namespace GraphSelection.Program

open GraphSelection Cypher

/-- What the whole program knows about its caller. -/
structure Terms where
  authenticated : Bool
  /-- The message of a failed validation. -/
  forbidden : String

structure Context where
  terms : Terms
  subject : String
  relationship : Option String
  /-- The subjects of the scopes around, the nearest first. -/
  parents : List String
  result : String

namespace Context

def root (terms : Terms) (subject result : String) : Context :=
  { terms, subject, relationship := none, parents := [], result }

/-- A scope inside this one. -/
def enter (ctx : Context) (subject : String) (relationship : Option String) (result : String) :
    Context :=
  { terms := ctx.terms, subject, relationship, parents := ctx.subject :: ctx.parents, result }

/-- A scope beside this one. -/
def sibling (ctx : Context) (subject : String) (relationship : Option String) : Context :=
  { ctx with subject, relationship }

/-- A scope beside this one with new names. -/
def freshSibling (ctx : Context) : Build Context := do
  let subject ← fresh "this"
  match ctx.relationship with
  | none => return ctx.sibling subject none
  | some _ =>
      let relationship ← fresh "this"
      return ctx.sibling subject (some relationship)

def isRoot (ctx : Context) : Bool := ctx.parents.isEmpty

def parent (ctx : Context) : Except Failure String :=
  match ctx.parents with
  | [] => .error (.missingBinding "parent")
  | parent :: _ => .ok parent

def edge (ctx : Context) : Except Failure String :=
  match ctx.relationship with
  | none => .error (.missingBinding "relationship")
  | some name => .ok name

end Context

end GraphSelection.Program
