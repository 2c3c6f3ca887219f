import GraphSelection.Plan.Measure
import GraphSelection.Program.Context

/-!
Measures as expressions over a node and the edge to it.
-/
namespace GraphSelection.Program

open GraphSelection Cypher Plan

/-- What has to come before a reduction, and the reduction. -/
abbrev Reduced := List Clause × Expr

/-- The longest text comes first, the shortest last; equal lengths stay as they were matched. -/
def reduce (value : Expr) : Reduction → Reduced
  | .min => ([], .apply "min" [value])
  | .max => ([], .apply "max" [value])
  | .average => ([], .apply "avg" [value])
  | .sum => ([], .apply "sum" [value])
  | .averageLength => ([], .apply "avg" [.apply "size" [value]])
  | .longest =>
      ([.window [⟨.apply "size" [value], true⟩] none none],
        .apply "head" [.apply "collect" [value]])
  | .shortest =>
      ([.window [⟨.apply "size" [value], true⟩] none none],
        .apply "last" [.apply "collect" [value]])

def measured (m : Measure) (node : String) (edge : Option String) : Except Failure Reduced :=
  match m, edge with
  | .countNodes, _ => .ok ([], .apply "count" [.distinct (.var node)])
  | .countEdges, some edge => .ok ([], .apply "count" [.var edge])
  | .node a f, _ => .ok (reduce (.propertyOf node a.stored) f)
  | .edge a f, some edge => .ok (reduce (.propertyOf edge a.stored) f)
  | _, none => .error (.missingBinding "relationship")

end GraphSelection.Program
