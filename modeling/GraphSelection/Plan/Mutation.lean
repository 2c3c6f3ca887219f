import GraphSelection.Plan.Field

/-!
Changes: values written to attributes, and changes to what a relationship leads to inside them.
-/
namespace GraphSelection.Plan

structure Assignment where
  target : Attribute
  value : Doc

/-- A new node, with the changes nested in it and what must hold once all is written. -/
structure NewNode (μ : Type) where
  assignments : List Assignment
  nested : List μ
  validations : List Condition

/-- A relationship and the entity it leads to. -/
structure Link where
  relationship : Relationship
  target : Entity

inductive Mutation where
  | create (link : Link) (node : NewNode Mutation) (edge : List Assignment)
  | connect (link : Link) (filter : Option Condition) (edge : List Assignment)
      (validations : List Condition)
  | disconnect (link : Link) (filter : Option Condition) (validations : List Condition)
  | update (link : Link) (filter : Option Condition) (before : List Condition)
      (node edge : List Assignment) (after : List Condition)
  | delete (link : Link) (filter : Option Condition) (before : List Condition)
      (nested : List Mutation)

def Mutation.link : Mutation → Link
  | .create link _ _ => link
  | .connect link _ _ _ => link
  | .disconnect link _ _ => link
  | .update link _ _ _ _ _ => link
  | .delete link _ _ _ => link

structure Create where
  entity : Entity
  nodes : List (NewNode Mutation)
  fields : List Field

structure Update where
  entity : Entity
  filter : Option Condition
  before : List Condition
  assignments : List Assignment
  nested : List Mutation
  after : List Condition
  fields : List Field

structure Delete where
  entity : Entity
  filter : Option Condition
  before : List Condition
  nested : List Mutation

/-- What a request asks for, with every name resolved. -/
inductive Operation where
  | lookup (lookup : Lookup Field)
  | aggregate (aggregate : Aggregate)
  | create (create : Create)
  | update (update : Update)
  | delete (delete : Delete)

end GraphSelection.Plan
