import GraphSelection.Failure
import GraphSelection.Schema.Model

/-!
Orders and pages of what a scope finds.
-/
namespace GraphSelection.Plan

inductive SortTarget where
  | node (a : Attribute)
  | edge (a : Attribute)
  | computed (a : Attribute)

namespace SortTarget

def attr : SortTarget → Attribute
  | .node a | .edge a | .computed a => a

/-- A node attribute is sorted by its property, or by its statement. -/
def ofAttribute (a : Attribute) : SortTarget := if a.isComputed then .computed a else .node a

end SortTarget

structure SortKey where
  target : SortTarget
  descending : Bool

/-- The same order by the attribute that a constituent declares itself. -/
def SortKey.forMember (key : SortKey) (member : Entity) : Except Failure SortKey :=
  match key.target with
  | .edge a => .ok { key with target := .edge a }
  | target =>
      match member.attribute? target.attr.name with
      | some a => .ok { key with target := SortTarget.ofAttribute a }
      | none => .error (.argument "sort" (.notSortableBy member.name target.attr.name))

/-- A page of the result, after all limits have been applied. -/
structure Page where
  skip : Option Nat := none
  limit : Option Nat := none
  deriving DecidableEq

def Page.isWhole (p : Page) : Bool := p.skip.isNone && p.limit.isNone

structure Arrangement where
  sort : List SortKey := []
  page : Page := {}

end GraphSelection.Plan
