import GraphSelection.Plan.Measure

/-!
Conditions on the node of a scope: what a `where` argument or an authorization rule asks for.
-/
namespace GraphSelection.Plan

inductive Comparison where
  | eq
  | gt
  | gte
  | lt
  | lte
  | contains
  | startsWith
  | endsWith
  | isIn
  /-- A list attribute holds the value. -/
  | includes
  deriving DecidableEq, Repr

namespace Comparison

/-- Comparisons as keys of an operator object. -/
def generic : List (String × Comparison) :=
  [("eq", .eq), ("gt", .gt), ("gte", .gte), ("lt", .lt), ("lte", .lte), ("contains", .contains),
   ("startsWith", .startsWith), ("endsWith", .endsWith), ("in", .isIn), ("includes", .includes)]

def ofGeneric? (name : String) : Option Comparison := List.lookup name generic

/-- Comparisons as endings of attribute keys. -/
def endings : List (String × Comparison) :=
  [("_STARTS_WITH", .startsWith), ("_ENDS_WITH", .endsWith), ("_CONTAINS", .contains),
   ("_INCLUDES", .includes), ("_GTE", .gte), ("_LTE", .lte), ("_GT", .gt), ("_LT", .lt),
   ("_EQ", .eq), ("_IN", .isIn)]

/-- Comparisons as endings of aggregation keys. -/
def aggregateEndings : List (String × Comparison) :=
  [("_EQUAL", .eq), ("_GTE", .gte), ("_LTE", .lte), ("_GT", .gt), ("_LT", .lt), ("_EQ", .eq)]

def name : Comparison → String
  | .eq => "Eq"
  | .gt => "Gt"
  | .gte => "Gte"
  | .lt => "Lt"
  | .lte => "Lte"
  | .contains => "Contains"
  | .startsWith => "StartsWith"
  | .endsWith => "EndsWith"
  | .isIn => "In"
  | .includes => "Includes"

def isTextual : Comparison → Bool
  | .contains | .startsWith | .endsWith => true
  | _ => false

def isOrdering : Comparison → Bool
  | .gt | .gte | .lt | .lte => true
  | _ => false

/-- Comparisons that a reduced value takes. -/
def isScalar (c : Comparison) : Bool := c == .eq || c.isOrdering

end Comparison

/-- The right side of a comparison. -/
inductive Operand where
  | literal (value : Doc)
  /-- A claim of the principal, absent when there is none at the path. -/
  | claim (path : String) (value : Option Doc)

/-- The left side of a comparison. -/
inductive Subject where
  | node (a : Attribute)
  | edge (a : Attribute)
  | computed (a : Attribute)
  | claim (path : String) (value : Option Doc)

def Subject.kind? : Subject → Option ScalarKind
  | .node a | .edge a | .computed a => some a.kind
  | .claim _ _ => none

/-- How many of the related nodes must satisfy a condition. -/
inductive Quantifier where
  | atLeastOne
  | every
  | noneAtAll
  | exactlyOne
  deriving DecidableEq, Repr

namespace Quantifier

def generic : List (String × Quantifier) :=
  [("some", .atLeastOne), ("SOME", .atLeastOne), ("all", .every), ("ALL", .every),
   ("none", .noneAtAll), ("NONE", .noneAtAll), ("single", .exactlyOne), ("SINGLE", .exactlyOne)]

def ofGeneric? (name : String) : Option Quantifier := List.lookup name generic

def endings : List (String × Quantifier) :=
  [("_SOME", .atLeastOne), ("_ALL", .every), ("_NONE", .noneAtAll), ("_SINGLE", .exactlyOne)]

end Quantifier

/-- A measure over the nodes that a relationship leads to, compared with a value. -/
structure Aggregation where
  relationship : Relationship
  target : Entity
  measure : Measure
  op : Comparison
  value : Doc

inductive Condition where
  | all (items : List Condition)
  | any (items : List Condition)
  | not (inner : Condition)
  | compare (subject : Subject) (op : Comparison) (operand : Operand) (caseInsensitive : Bool)
  | nullness (subject : Subject) (isNull : Bool)
  /-- The node carries all the labels. -/
  | labels (labels : List String)
  /-- A composite target has one entry for each constituent that is kept. -/
  | related (relationship : Relationship) (quantifier : Quantifier)
      (targets : List (Entity × Option Condition)) (isComposite : Bool) (edge : Option Condition)
  | aggregation (aggregation : Aggregation)
  | authenticated

namespace Condition

/-- The members of a conjunction; any other condition is its own only member. -/
def conjuncts : Condition → List Condition
  | .all items => items
  | c => [c]

/-- The conjunction of some conditions, with conjunctions among them taken apart. -/
def allOf (cs : List Condition) : Option Condition :=
  match cs.flatMap conjuncts with
  | [] => none
  | [c] => some c
  | flat => some (.all flat)

end Condition

end GraphSelection.Plan
