import GraphSelection.Plan.Condition
import GraphSelection.Plan.Ordering

/-!
Selected fields and the lookups behind them. A scope is a set of nodes: of an entity, reached over
a relationship or not, with the condition and the validations that guard it. A lookup reads one
scope as a list or as a connection, or one scope for each constituent of a composite.
-/
namespace GraphSelection.Plan

structure Scope where
  entity : Entity
  /-- The relationship from the scope around; none at the root. -/
  relationship : Option Relationship
  filter : Option Condition
  validations : List Condition

structure Aggregate where
  scope : Scope
  items : List AggregateItem

/-- A selected relationship property. -/
inductive EdgeField where
  | stored (key : String) (a : Attribute)
  | typename (key typeName : String)

def EdgeField.key : EdgeField → String
  | .stored key _ => key
  | .typename key _ => key

inductive PageInfoField where
  | hasNextPage (key : String)
  | hasPreviousPage (key : String)
  | typename (key : String)

structure Read (φ : Type) where
  scope : Scope
  fields : List φ
  sort : List SortKey
  page : Page

/-- An entry of a connection; `node` and `properties` come with their response keys. -/
inductive ConnectionItem (φ : Type) where
  | totalCount (key : String)
  | edges (key : String) (node : Option (String × List φ))
      (properties : Option (String × List EdgeField)) (typename : Option (String × String))
  | pageInfo (key : String) (fields : List PageInfoField)
  | aggregate (key : String) (items : List AggregateItem)
  | typename (key typeName : String)

structure Connection (φ : Type) where
  scope : Scope
  sort : List SortKey
  page : Page
  items : List (ConnectionItem φ)

/-- A read of each constituent that is kept, merged into one result. -/
structure CompositeRead (φ : Type) where
  composite : Composite
  relationship : Option Relationship
  branches : List (Read φ)
  sort : List SortKey
  page : Page

structure ConnectionBranch (φ : Type) where
  read : Read φ
  edgeFields : List EdgeField

structure CompositeConnection (φ : Type) where
  composite : Composite
  relationship : Option Relationship
  branches : List (ConnectionBranch φ)
  sort : List SortKey
  page : Page
  items : List (ConnectionItem φ)

inductive Lookup (φ : Type) where
  | read (r : Read φ)
  | connection (c : Connection φ)
  | composite (c : CompositeRead φ)
  | compositeConnection (c : CompositeConnection φ)

inductive Field where
  | stored (key : String) (a : Attribute)
  | computed (key : String) (a : Attribute)
  | typename (key typeName : String)
  | lookup (key : String) (lookup : Lookup Field)
  | aggregate (key : String) (aggregate : Aggregate)

namespace ConnectionItem

variable {φ : Type}

def key : ConnectionItem φ → String
  | .totalCount key => key
  | .edges key _ _ _ => key
  | .pageInfo key _ => key
  | .aggregate key _ => key
  | .typename key _ => key

/-- Items that look at the page, not only at the whole set. -/
def needsPage : ConnectionItem φ → Bool
  | .edges _ _ _ _ => true
  | .pageInfo _ _ => true
  | _ => false

end ConnectionItem

namespace Field

def key : Field → String
  | .stored key _ => key
  | .computed key _ => key
  | .typename key _ => key
  | .lookup key _ => key
  | .aggregate key _ => key

/-- The attribute a field reads. -/
def attr? : Field → Option Attribute
  | .stored _ a => some a
  | .computed _ a => some a
  | _ => none

/-- The attributes a selection reads. -/
def attributes (fields : List Field) : List Attribute := fields.filterMap attr?

end Field

end GraphSelection.Plan
