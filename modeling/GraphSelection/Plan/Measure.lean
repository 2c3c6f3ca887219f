import GraphSelection.Failure
import GraphSelection.Schema.Model

/-!
Measures: what an aggregation reduces a set of nodes or edges to, and which attributes a reduction
makes sense for.
-/
namespace GraphSelection.Plan

inductive Reduction where
  | min
  | max
  | average
  | sum
  | shortest
  | longest
  | averageLength
  deriving DecidableEq, Repr

namespace Reduction

def name : Reduction → String
  | .min => "min"
  | .max => "max"
  | .average => "average"
  | .sum => "sum"
  | .shortest => "shortest"
  | .longest => "longest"
  | .averageLength => "averageLength"

/-- Reductions that a selection can ask for. -/
def selectable : List (String × Reduction) :=
  [("min", .min), ("max", .max), ("average", .average), ("sum", .sum), ("shortest", .shortest),
   ("longest", .longest)]

/-- Reductions that a filter can compare. -/
def comparable : List (String × Reduction) :=
  [("min", .min), ("max", .max), ("average", .average), ("sum", .sum),
   ("shortestLength", .shortest), ("longestLength", .longest), ("averageLength", .averageLength)]

/-- Reductions as endings of filter keys. -/
def endings : List (String × Reduction) :=
  [("_SHORTEST_LENGTH", .shortest), ("_LONGEST_LENGTH", .longest),
   ("_AVERAGE_LENGTH", .averageLength), ("_AVERAGE", .average), ("_MIN", .min), ("_MAX", .max),
   ("_SUM", .sum)]

/-- Lists are not reduced; sums need numbers, lengths need text, extremes need an order. -/
def suits (f : Reduction) (a : Attribute) : Bool :=
  !a.isList &&
    match f with
    | .average | .sum => a.kind.isNumeric
    | .shortest | .longest | .averageLength => a.kind == .string
    | .min | .max => a.kind.isOrdered

def check (f : Reduction) (a : Attribute) (path : String) : Except Failure Unit :=
  if f.suits a then .ok ()
  else .error (.aggregation path (.unsuitedReduction f.name a.kind.name a.name))

end Reduction

inductive Measure where
  /-- Different nodes. -/
  | countNodes
  /-- All matched edges. -/
  | countEdges
  | node (a : Attribute) (f : Reduction)
  | edge (a : Attribute) (f : Reduction)

namespace Measure

def key : Measure → String
  | .countNodes => "nodes"
  | .countEdges => "edges"
  | .node a f => "node." ++ a.name ++ "." ++ f.name
  | .edge a f => "edge." ++ a.name ++ "." ++ f.name

def reduction? : Measure → Option Reduction
  | .node _ f => some f
  | .edge _ f => some f
  | _ => none

/-- A longest or shortest text is compared by its length. -/
def comparesLength (m : Measure) : Bool :=
  m.reduction? == some .longest || m.reduction? == some .shortest

/-- The kind of the reduced value where it is the kind of the attribute. -/
def valueKind? : Measure → Option ScalarKind
  | .node a f | .edge a f =>
      match f with
      | .min | .max | .average | .sum => some a.kind
      | _ => none
  | _ => none

end Measure

/-- An entry of an aggregate selection. -/
inductive AggregateItem where
  | measure (key : String) (measure : Measure)
  | group (key : String) (items : List AggregateItem)
  | typename (key typeName : String)

namespace AggregateItem

mutual
/-- The attributes of the node that an item reduces. -/
def nodeAttributes : AggregateItem → List Attribute
  | .measure _ (.node a _) => [a]
  | .measure _ _ => []
  | .group _ items => nodeAttributesOf items
  | .typename _ _ => []
def nodeAttributesOf : List AggregateItem → List Attribute
  | [] => []
  | item :: rest => nodeAttributes item ++ nodeAttributesOf rest
end

end AggregateItem

end GraphSelection.Plan
