import GraphSelection.Plan.Field
import GraphSelection.Resolve.Guard
import GraphSelection.Text.Capital

/-!
Aggregate selections: counts and reductions of attributes. At the root the attributes stand in the
selection itself; over a relationship they stand under `node` and `edge`.
-/
namespace GraphSelection.Resolve

open GraphSelection Plan

/-- The relationship a nested scope is reached over, and the entity that owns it. -/
structure Via where
  owner : String
  relationship : Relationship

/-- The start of the type names of a nested connection. -/
def Via.typeStem (v : Via) : String := v.owner ++ Text.capitalize v.relationship.name

/-- What an aggregate selection may reduce. -/
structure AggregateKeys where
  target : Entity
  properties : Option PropertySet
  /-- Attributes stand in the selection itself. -/
  isDirect : Bool
  /-- There are edges to count. -/
  isTraversed : Bool
  typeStem : String

def reductionItem (a : Attribute) (make : Attribute → Reduction → Measure) (path : String)
    (f : Selection) : Result AggregateItem :=
  if f.name = "__typename" then .ok (.typename f.key (a.kind.name ++ "AggregateSelection"))
  else
    match List.lookup f.name Reduction.selectable with
    | none => .error (.aggregation (childPath path f.key) (.unknownReduction f.name))
    | some reduction => do
        reduction.check a path
        return .measure f.key (make a reduction)

/-- The reductions of one attribute. -/
def attributeGroup (key : String) (a : Attribute) (selection : List Selection)
    (make : Attribute → Reduction → Measure) (path : String) : Result AggregateItem := do
  if a.isComputed then throw (.aggregation path (.computedReduction a.name))
  let items ← selection.mapM (reductionItem a make path)
  return .group key items

def attributeGroups (owner : String) (find : String → Option Attribute)
    (make : Attribute → Reduction → Measure) (selection : List Selection) (typeName path : String) :
    Result (List AggregateItem) :=
  selection.mapM fun f =>
    if f.name = "__typename" then .ok (.typename f.key typeName)
    else
      match find f.name with
      | none => .error (.unknownField owner f.name)
      | some a => attributeGroup f.key a f.selection make (childPath path f.key)

def countItem (isTraversed : Bool) (f : Selection) : Result AggregateItem :=
  if f.name = "nodes" then .ok (.measure f.key .countNodes)
  else if f.name = "edges" && isTraversed then .ok (.measure f.key .countEdges)
  else if f.name = "__typename" then .ok (.typename f.key "Count")
  else .error (.unknownField "Count" f.name)

def AggregateKeys.typeName (k : AggregateKeys) : String := k.typeStem ++ "AggregateSelection"

def AggregateKeys.item (k : AggregateKeys) (path : String) (f : Selection) :
    Result AggregateItem := do
  let here := childPath path f.key
  if f.name = "__typename" then return .typename f.key k.typeName
  else if f.name = "count" then
    if f.selection.isEmpty then return .measure f.key .countNodes
    else
      let counts ← f.selection.mapM (countItem k.isTraversed)
      return .group f.key counts
  else if f.name = "node" && !k.isDirect then
    let items ← attributeGroups k.target.name k.target.attribute? .node f.selection
      (k.typeStem ++ "NodeAggregateSelection") here
    return .group f.key items
  else if f.name = "edge" && !k.isDirect && k.isTraversed then
    match k.properties with
    | none => throw (.unknownField k.typeName "edge")
    | some properties =>
        let items ← attributeGroups properties.name properties.attribute? .edge f.selection
          (k.typeStem ++ "EdgeAggregateSelection") here
        return .group f.key items
  else if k.isDirect then
    match k.target.attribute? f.name with
    | none => throw (.unknownField k.target.name f.name)
    | some a => attributeGroup f.key a f.selection .node here
  else throw (.unknownField k.typeName f.name)

def AggregateKeys.items (k : AggregateKeys) (selection : List Selection) (path : String) :
    Result (List AggregateItem) :=
  selection.mapM (k.item path)

/-- An aggregate under its `where` argument and the rules that guard it. -/
def guardedAggregate (s : Setup) (e : Entity) (relationship : Option Relationship)
    (args : Doc.Members) (items : List AggregateItem) (path : String) : Result Aggregate := do
  let members ← recordArg args "where" path
  let asked ← s.whereCondition e members path
  let scope ← guardedScope s e relationship asked.toList (AggregateItem.nodeAttributesOf items)
    .aggregate
  return { scope, items }

def rootAggregate (s : Setup) (e : Entity) (args : Doc.Members) (selection : List Selection)
    (path : String) : Result Aggregate := do
  let keys : AggregateKeys :=
    { target := e, properties := none, isDirect := true, isTraversed := false, typeStem := e.name }
  let items ← keys.items selection path
  guardedAggregate s e none args items path

/-- The aggregate over a relationship. -/
def relatedAggregate (s : Setup) (via : Via) (args : Doc.Members) (selection : List Selection)
    (path : String) : Result Aggregate := do
  match ← ofSchema (s.schema.targetOf via.relationship) with
  | .composite c => throw (.aggregation path (.isComposite c.name))
  | .entity target =>
      let keys : AggregateKeys :=
        { target
          properties := s.schema.propertiesOf via.relationship
          isDirect := false
          isTraversed := true
          typeStem := via.typeStem }
      let items ← keys.items selection path
      guardedAggregate s target (some via.relationship) args items path

end GraphSelection.Resolve
