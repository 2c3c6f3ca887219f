import GraphSelection.Cypher.Text
import GraphSelection.Plan.Outline
import GraphSelection.Program.Mutation
import GraphSelection.Resolve.Operation

/-!
Compilation of a request: its plan is resolved, the depth of the plan is checked, and the clauses
of the plan are written down. Names and parameters are drawn from one supply, so that equal inputs
give equal programs.
-/
namespace GraphSelection

open Plan Resolve

structure Compiled where
  clauses : List Cypher.Clause
  /-- Parameters in the order in which they were made. -/
  params : Entries Doc
  /-- The column of the response; a deletion has none. -/
  result : Option String

namespace Compiled

def text (c : Compiled) : String := Cypher.clausesText c.clauses

/-- The text of a program with its parameters. -/
def encode (c : Compiled) : Doc :=
  .record [("cypher", .text c.text), ("params", .record c.params)]

end Compiled

/-- The column under which a response is returned. -/
def responseColumn : String := "this"

def resultOf : Operation → Option String
  | .delete _ => none
  | _ => some responseColumn

def Resolve.Setup.terms (s : Setup) : Program.Terms :=
  { authenticated := s.principal.authenticated, forbidden := s.settings.forbidden }

/-- The plan of a request that is not nested too deep. -/
def Resolve.Setup.plan (s : Setup) (r : Request) : Except Failure Operation := do
  let o ← s.operation r
  if s.settings.maxDepth < o.depth then throw (.tooDeep o.depth s.settings.maxDepth)
  return o

/-- The clauses of a plan. The first name of a program is that of its outermost node. -/
def programOf (terms : Program.Terms) (o : Operation) : Program.Build (List Cypher.Clause) := do
  let subject ← Program.fresh "this"
  Program.operationClauses (.root terms subject responseColumn) o

/-- The program of a request. -/
def compile (s : Setup) (r : Request) : Except Failure Compiled := do
  let o ← s.plan r
  let (clauses, supply) ← (programOf s.terms o).run {}
  return { clauses, params := supply.params, result := resultOf o }

end GraphSelection
