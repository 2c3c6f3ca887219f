import GraphSelection.Plan.Mutation

/-!
The outline of a plan: its nodes with their labels, in order. Some nodes open a new scope of the
graph; the depth of a plan is the longest chain of them.
-/
namespace GraphSelection.Plan

/-- A node of a plan. -/
inductive Outline where
  | node (label : String) (opensScope : Bool) (children : List Outline)

namespace Outline

def label : Outline → String
  | .node label _ _ => label

def children : Outline → List Outline
  | .node _ _ children => children

mutual
def depth : Outline → Nat
  | .node _ opensScope children => (if opensScope then 1 else 0) + depthOf children
def depthOf : List Outline → Nat
  | [] => 0
  | o :: rest => max o.depth (depthOf rest)
end

end Outline

def leaf (label : String) : Outline := .node label false []

mutual
def Condition.outline : Condition → Outline
  | .all items => .node "Filter And" false (Condition.outlines items)
  | .any items => .node "Filter Or" false (Condition.outlines items)
  | .not inner => .node "Filter Not" false [inner.outline]
  | .compare _ _ _ _ => leaf "Filter Property"
  | .nullness _ _ => leaf "Filter Null"
  | .labels _ => leaf "Filter Label"
  | .related _ _ targets _ edge =>
      .node "Filter Relationship" true
        (Condition.targetOutlines targets ++ Condition.optionOutline edge)
  | .aggregation _ => .node "Filter Aggregation" true []
  | .authenticated => leaf "Filter Authenticated"
def Condition.outlines : List Condition → List Outline
  | [] => []
  | c :: rest => c.outline :: Condition.outlines rest
def Condition.targetOutlines : List (Entity × Option Condition) → List Outline
  | [] => []
  | (_, filter) :: rest => Condition.optionOutline filter ++ Condition.targetOutlines rest
def Condition.optionOutline : Option Condition → List Outline
  | none => []
  | some c => [c.outline]
end

def validationOutlines (validations : List Condition) : List Outline :=
  validations.map fun c => .node "Validation" false [c.outline]

def SortKey.outline (key : SortKey) : Outline :=
  leaf ("Sort " ++ key.target.attr.name ++ if key.descending then " DESC" else " ASC")

def sortOutlines (sort : List SortKey) : List Outline := sort.map SortKey.outline

mutual
def AggregateItem.outline : AggregateItem → Outline
  | .measure key m => leaf ("Measure " ++ key ++ " " ++ m.key)
  | .group key items => .node ("Group " ++ key) false (AggregateItem.outlines items)
  | .typename key typeName => leaf ("AggregationTypename " ++ key ++ " " ++ typeName)
def AggregateItem.outlines : List AggregateItem → List Outline
  | [] => []
  | item :: rest => item.outline :: AggregateItem.outlines rest
end

def EdgeField.outline : EdgeField → Outline
  | .stored key _ => leaf ("Field Attribute " ++ key)
  | .typename key _ => leaf ("Field Typename " ++ key)

def Aggregate.outline (a : Aggregate) : Outline :=
  .node ("Operation Aggregate " ++ a.scope.entity.name) true
    (Condition.optionOutline a.scope.filter ++ validationOutlines a.scope.validations ++
      AggregateItem.outlines a.items)

mutual
def Field.outline : Field → Outline
  | .stored key _ => leaf ("Field Attribute " ++ key)
  | .computed key _ => leaf ("Field Computed " ++ key)
  | .typename key _ => leaf ("Field Typename " ++ key)
  | .lookup key l => .node ("Field Relationship " ++ key) false [Field.lookupOutline l]
  | .aggregate key a => .node ("Field Aggregation " ++ key) false [a.outline]
def Field.outlines : List Field → List Outline
  | [] => []
  | f :: rest => f.outline :: Field.outlines rest
def Field.lookupOutline : Lookup Field → Outline
  | .read r => .node ("Operation Read " ++ r.scope.entity.name) true (Field.readOutlines r)
  | .connection ⟨scope, sort, _, items⟩ =>
      .node ("Operation ConnectionRead " ++ scope.entity.name) true
        (Condition.optionOutline scope.filter ++ validationOutlines scope.validations ++
          sortOutlines sort ++ Field.itemOutlines items)
  | .composite ⟨composite, _, branches, sort, _⟩ =>
      .node ("Operation CompositeRead " ++ composite.name) true
        (sortOutlines sort ++ Field.branchOutlines branches)
  | .compositeConnection ⟨composite, _, branches, sort, _, items⟩ =>
      .node ("Operation CompositeConnectionRead " ++ composite.name) true
        (sortOutlines sort ++ Field.connectionBranchOutlines branches ++
          Field.itemOutlines items)
def Field.readOutlines : Read Field → List Outline
  | ⟨scope, fields, sort, _⟩ =>
      Field.outlines fields ++ Condition.optionOutline scope.filter ++
        validationOutlines scope.validations ++ sortOutlines sort
def Field.branchOutlines : List (Read Field) → List Outline
  | [] => []
  | r :: rest => Field.readOutlines r ++ Field.branchOutlines rest
def Field.connectionBranchOutlines : List (ConnectionBranch Field) → List Outline
  | [] => []
  | ⟨read, edgeFields⟩ :: rest =>
      Field.readOutlines read ++ edgeFields.map EdgeField.outline ++
        Field.connectionBranchOutlines rest
def Field.nodeOutlines : Option (String × List Field) → List Outline
  | none => []
  | some (_, fields) => Field.outlines fields
def Field.itemOutlines : List (ConnectionItem Field) → List Outline
  | [] => []
  | .edges _ node properties _ :: rest =>
      Field.nodeOutlines node ++ ((properties.map Prod.snd).getD []).map EdgeField.outline ++
        Field.itemOutlines rest
  | .aggregate _ items :: rest => AggregateItem.outlines items ++ Field.itemOutlines rest
  | .totalCount _ :: rest => Field.itemOutlines rest
  | .pageInfo _ _ :: rest => Field.itemOutlines rest
  | .typename _ _ :: rest => Field.itemOutlines rest
end

mutual
def Mutation.outline : Mutation → Outline
  | .create link ⟨_, nested, validations⟩ _ =>
      .node ("Mutation Create " ++ link.relationship.name) true
        (validationOutlines validations ++ Mutation.outlines nested)
  | .connect link filter _ validations =>
      .node ("Mutation Connect " ++ link.relationship.name) true
        (Condition.optionOutline filter ++ validationOutlines validations)
  | .disconnect link filter validations =>
      .node ("Mutation Disconnect " ++ link.relationship.name) true
        (Condition.optionOutline filter ++ validationOutlines validations)
  | .update link filter before _ _ after =>
      .node ("Mutation Update " ++ link.relationship.name) true
        (Condition.optionOutline filter ++ validationOutlines before ++ validationOutlines after)
  | .delete link filter before nested =>
      .node ("Mutation Delete " ++ link.relationship.name) true
        (Condition.optionOutline filter ++ validationOutlines before ++ Mutation.outlines nested)
def Mutation.outlines : List Mutation → List Outline
  | [] => []
  | m :: rest => m.outline :: Mutation.outlines rest
end

def NewNode.outlines (n : NewNode Mutation) : List Outline :=
  validationOutlines n.validations ++ Mutation.outlines n.nested

def Operation.outline : Operation → Outline
  | .lookup l => Field.lookupOutline l
  | .aggregate a => a.outline
  | .create c =>
      .node ("Operation Create " ++ c.entity.name) true
        (Field.outlines c.fields ++ c.nodes.flatMap NewNode.outlines)
  | .update u =>
      .node ("Operation Update " ++ u.entity.name) true
        (Condition.optionOutline u.filter ++ validationOutlines u.before ++
          Mutation.outlines u.nested ++ validationOutlines u.after ++ Field.outlines u.fields)
  | .delete d =>
      .node ("Operation Delete " ++ d.entity.name) true
        (Condition.optionOutline d.filter ++ validationOutlines d.before ++
          Mutation.outlines d.nested)

/-- The longest chain of nested scopes. -/
def Operation.depth (o : Operation) : Nat := o.outline.depth

end GraphSelection.Plan
