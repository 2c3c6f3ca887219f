import GraphSelection.Resolve.Operation

/-!
Requests that differ in values only. Every value in the arguments of a request stands in some
place: it is compared with an attribute or with an aggregation, it is assigned to an attribute, it
is an object that is read further, or it has to stay as it is. The places of the members of an
object follow from the place of the object and from the schema. One request restates another when
the two have the same structure and differ only where their places permit it.
-/
namespace GraphSelection

/-- The kinds of values that are told apart when arguments are read. -/
inductive Doc.Kind where
  | null
  | list
  | record
  | other
  deriving DecidableEq

def Doc.kind : Doc → Doc.Kind
  | .null => .null
  | .list _ => .list
  | .record _ => .record
  | _ => .other

/-- Objects stay; any other value is replaced. -/
def Doc.replacedBy (g : Doc → Doc) : Doc → Doc
  | .record members => .record members
  | value => g value

end GraphSelection

namespace GraphSelection.Resolve

open GraphSelection Plan

/-- Where a value stands in the arguments of a request. -/
inductive Place where
  /-- It stays as it is. -/
  | fixed
  /-- It may be replaced by anything: an attribute is set to it. -/
  | free
  /-- It may be replaced by a value of its kind: one comparison with an attribute. -/
  | like
  /-- It is compared with an attribute, or it is an operator object of such comparisons. -/
  | operand
  /-- Comparisons with an attribute without regard to case. -/
  | caseless
  /-- It is compared with an aggregation. -/
  | measured
  /-- Comparisons with one aggregation. -/
  | measures
  /-- A number to compare a count with, or an object of such comparisons. -/
  | counted
  | reductions
  /-- Reductions by attribute. -/
  | reduced (find : String → Option Attribute)
  | aggregation (r : Relationship)
  | aggregations (r : Relationship)
  /-- An object of conditions. -/
  | object (keys : Keys)
  | objects (keys : Keys)
  /-- An object of conditions on what a name stands for. -/
  | target (found : Except SchemaFault Target)
  | edge (r : Relationship)
  /-- Conditions on the nodes a relationship leads to, by quantifier or not. -/
  | related (r : Relationship)
  /-- Conditions under `node` and `edge`. -/
  | connected (r : Relationship)
  | connection (r : Relationship)
  /-- Conditions under `node` and `edge` of a nested change. -/
  | linked (r : Relationship) (takesEdge : Bool)
  | assignments
  /-- The input of a new node. -/
  | input (e : Entity)
  | inputs (e : Entity)
  /-- Changes under a relationship of a new node, by action. -/
  | changes (r : Relationship)
  /-- One change of what a relationship leads to. -/
  | change (action : String) (r : Relationship)
  | entries (action : String) (r : Relationship)
  | byRelationship (action : String) (e : Entity)
  | updateInput (e : Entity)
  | updated
  /-- One entry of an update of what a relationship leads to. -/
  | updating (r : Relationship)
  | updates (r : Relationship)
  /-- The arguments of a lookup. -/
  | lookup (conditions : Place)
  | creation (e : Entity)
  | update (e : Entity)
  | deletion (e : Entity)

section Members

variable (schema : Schema)

def aggregationKeys? (r : Relationship) : Option AggregationKeys :=
  match schema.targetOf r with
  | .ok (.entity e) => some ⟨r, e, schema.propertiesOf r⟩
  | _ => none

/-- Under a key such as `title_GT`. -/
def suffixedPlaces (keys : Keys) (key : String) : List Place :=
  match (dropAny key Comparison.endings).bind fun found => keys.attribute? found.1 with
  | some _ => [.like]
  | none => []

/-- Under a key made of the name of a relationship. -/
def variantPlaces (e : Entity) (key : String) : List Place :=
  let quantified := dropAny key Quantifier.endings
  let base := (quantified.map Prod.fst).getD key
  let quantifier := quantified.map Prod.snd
  match quantifier, e.relationship? base with
  | some _, some r => [.target (schema.targetOf r)]
  | _, _ =>
      match (Text.dropEnd? base "Connection").bind e.relationship?, quantifier with
      | some r, some _ => [.connected r]
      | some r, none => [.connection r]
      | none, some _ => []
      | none, none =>
          match (Text.dropEnd? key "Aggregate").bind e.relationship? with
          | some r => [.aggregation r]
          | none => []

/-- Under a key of an object of conditions that is no connective. -/
def fieldPlaces (keys : Keys) (key : String) : List Place :=
  match keys with
  | .claims => [.operand]
  | .edge p =>
      match p.attribute? key with
      | some _ => [.operand]
      | none => suffixedPlaces (.edge p) key
  | .node e =>
      match e.attribute? key with
      | some _ => [.operand]
      | none =>
          match e.relationship? key with
          | some r => [.related r]
          | none => variantPlaces schema e key ++ suffixedPlaces (.node e) key

def objectPlaces (keys : Keys) (key : String) : List Place :=
  match key with
  | "AND" => [.objects keys]
  | "OR" => [.objects keys]
  | "NOT" => [.object keys]
  | _ => fieldPlaces schema keys key

/-- Type names stay as they are; what else is asked of an interface is asked of all its
constituents. -/
def compositePlaces (c : Composite) (key : String) : List Place :=
  match schema.constituents c with
  | .error _ => []
  | .ok entities =>
      if c.isUnion then
        (entities.filter (·.name == key)).map fun e => .object (.node e)
      else
        (if key = "typename" || key = "typename_IN" then [.fixed] else []) ++
          entities.flatMap fun e => objectPlaces schema (.node e) key

def targetPlaces (found : Except SchemaFault Target) (key : String) : List Place :=
  match found with
  | .ok (.entity e) => objectPlaces schema (.node e) key
  | .ok (.composite c) => compositePlaces schema c key
  | .error _ => []

def edgePlaces (r : Relationship) (key : String) : List Place :=
  match schema.propertiesOf r with
  | some p => objectPlaces schema (.edge p) key
  | none => []

def connectedPlaces (r : Relationship) (key : String) : List Place :=
  if key = "node" then [.target (schema.targetOf r)]
  else if key = "edge" then [.edge r]
  else []

def aggregationPlaces (r : Relationship) (key : String) : List Place :=
  match aggregationKeys? schema r with
  | none => []
  | some k =>
      match key with
      | "AND" => [.aggregations r]
      | "OR" => [.aggregations r]
      | "NOT" => [.aggregation r]
      | "count" => [.counted]
      | "node" => [.reduced k.target.attribute?]
      | "edge" =>
          match k.properties with
          | some p => [.reduced p.attribute?]
          | none => []
      | _ =>
          match AggregationKeys.countEnding? key with
          | some _ => [.measured]
          | none => []

def linkedPlaces (r : Relationship) (takesEdge : Bool) (key : String) : List Place :=
  match key with
  | "node" =>
      match schema.targetOf r with
      | .ok (.entity e) => [.object (.node e)]
      | _ => []
  | "edge" =>
      match takesEdge, schema.propertiesOf r with
      | true, some p => [.object (.edge p)]
      | _, _ => [.like]
  | _ => [.like]

def inputPlaces (e : Entity) (key : String) : List Place :=
  match e.relationship? key with
  | some r => [.changes r]
  | none => [.free]

def changePlaces (action : String) (r : Relationship) (key : String) : List Place :=
  match action, key with
  | "create", "node" =>
      match schema.targetOf r with
      | .ok (.entity e) => [.input e]
      | _ => []
  | "create", "edge" => [.assignments]
  | "connect", "where" => [.linked r false]
  | "connect", "edge" => [.assignments]
  | "disconnect", "where" => [.linked r true]
  | "delete", "where" => [.linked r true]
  | "delete", "delete" =>
      match schema.targetOf r with
      | .ok (.entity e) => [.byRelationship "delete" e]
      | _ => []
  | _, _ => []

def updatingPlaces (r : Relationship) (key : String) : List Place :=
  match key with
  | "where" => [.linked r true]
  | "update" => [.updated]
  | _ => if Setup.relatedActions.contains key then [.entries key r] else []

/-- The places of what stands under a key of a whole object. -/
def Place.under (whole : Doc.Members) (key : String) : Place → List Place
  | .operand =>
      if isOperatorRecord whole then
        if key = "caseInsensitive" then [.caseless] else [.like]
      else []
  | .caseless => [.like]
  | .measures => if (Comparison.ofGeneric? key).isSome then [.measured] else []
  | .counted =>
      if isOperatorRecord whole then
        if (Comparison.ofGeneric? key).isSome then [.measured] else []
      else if key = "nodes" || key = "edges" then [.measures]
      else []
  | .reductions => if (List.lookup key Reduction.comparable).isSome then [.measures] else []
  | .reduced find =>
      match find key with
      | some _ => [.reductions]
      | none => if (AggregationKeys.suffixed? find key).isSome then [.measured] else []
  | .aggregation r => aggregationPlaces schema r key
  | .object keys => objectPlaces schema keys key
  | .target found => targetPlaces schema found key
  | .edge r => edgePlaces schema r key
  | .related r =>
      if Reader.isQuantifierRecord whole then
        if (Quantifier.ofGeneric? key).isSome then [.target (schema.targetOf r)] else []
      else targetPlaces schema (schema.targetOf r) key
  | .connected r => connectedPlaces schema r key
  | .connection r =>
      if whole.any fun (key, _) => key == "aggregate" || (Quantifier.ofGeneric? key).isSome then
        if key = "aggregate" then [.aggregation r]
        else if (Quantifier.ofGeneric? key).isSome then [.connected r]
        else []
      else connectedPlaces schema r key
  | .linked r takesEdge => linkedPlaces schema r takesEdge key
  | .assignments => [.free]
  | .input e => inputPlaces e key
  | .inputs e => inputPlaces e key
  | .changes r =>
      [.entries (if key = "create" || key = "connect" then key else "") r]
  | .change action r => changePlaces schema action r key
  | .entries action r => changePlaces schema action r key
  | .byRelationship action e => (e.relationship? key).toList.map (.entries action)
  | .updateInput e =>
      match e.relationship? key with
      | some r => [.updates r]
      | none => [.free]
  | .updated => if key = "node" || key = "edge" then [.assignments] else []
  | .updating r => updatingPlaces r key
  | .updates r => updatingPlaces r key
  | .lookup conditions => if key = "where" then [conditions] else [.fixed]
  | .creation e => if key = "input" then [.inputs e] else [.fixed]
  | .update e =>
      if key = "where" then [.object (.node e)]
      else if key = "update" then [.updateInput e]
      else if Setup.relatedActions.contains key then [.byRelationship key e]
      else [.fixed]
  | .deletion e =>
      if key = "where" then [.object (.node e)]
      else if key = "delete" then [.byRelationship "delete" e]
      else [.fixed]
  | .fixed | .free | .like | .measured | .aggregations _ | .objects _ => []

end Members

/-- The places of the items of a list. -/
def Place.items : Place → List Place
  | .objects keys => [.object keys]
  | .aggregations r => [.aggregation r]
  | .inputs e => [.input e]
  | .entries action r => [.change action r]
  | .updates r => [.updating r]
  | _ => []

/-- The members of an object are read one by one. -/
def Place.opens : Place → Bool
  | .fixed | .free | .like | .measured | .aggregations _ | .objects _ => false
  | _ => true

section Restated

variable (schema : Schema) (g : Doc → Doc)

/-- What a place asks of a value and the one that replaces it. -/
def Place.permits : Place → Doc → Doc → Prop
  | .fixed, v, v' => v' = v
  | .free, _, _ => True
  | .measured, v, v' => v' = v.replacedBy g
  | .counted, v, v' => v'.kind = v.kind ∧ (v.kind ≠ .record → v' = g v)
  | _, v, v' => v'.kind = v.kind

mutual
/-- The second document is as the first, except where the places permit otherwise. -/
def DocRestated (places : List Place) : Doc → Doc → Prop
  | .record members, .record members' =>
      (∀ p ∈ places, p.permits g (.record members) (.record members')) ∧
        (places.any Place.opens = true → MembersRestated places members members members')
  | .list items, .list items' =>
      (∀ p ∈ places, p.permits g (.list items) (.list items')) ∧
        (places.flatMap Place.items ≠ [] →
          ItemsRestated (places.flatMap Place.items) items items')
  | v, v' => ∀ p ∈ places, p.permits g v v'
termination_by structural v => v
def MembersRestated (places : List Place) (whole : Doc.Members) :
    List (String × Doc) → List (String × Doc) → Prop
  | [], [] => True
  | (key, v) :: rest, (key', v') :: rest' =>
      key = key' ∧ DocRestated (places.flatMap (Place.under schema whole key)) v v' ∧
        MembersRestated places whole rest rest'
  | _, _ => False
termination_by structural members => members
def ItemsRestated (places : List Place) : List Doc → List Doc → Prop
  | [], [] => True
  | v :: rest, v' :: rest' => DocRestated places v v' ∧ ItemsRestated places rest rest'
  | _, _ => False
termination_by structural items => items
end

end Restated

/-- What a selection is about. -/
inductive View where
  | fields (e : Entity)
  | connection (entities : List Entity)
  | edges (entities : List Entity)

section Selections

variable (schema : Schema) (g : Doc → Doc)

def entitiesOf (found : Except SchemaFault Target) : List Entity :=
  match found with
  | .ok t => (schema.members t).toOption.getD []
  | .error _ => []

/-- The places of the arguments of a field. -/
def View.arguments (name : String) : View → List Place
  | .fields e =>
      if name = "__typename" || (e.attribute? name).isSome then []
      else
        match e.relationship? name with
        | some r => [.lookup (.target (schema.targetOf r))]
        | none =>
            match (Text.dropEnd? name "Connection").bind e.relationship? with
            | some r => [.lookup (.connected r)]
            | none =>
                match (Text.dropEnd? name "Aggregate").bind e.relationship? with
                | some r => [.lookup (.target (schema.targetOf r))]
                | none => []
  | _ => []

/-- What the selections under a field are about. -/
def View.below (name : String) : View → List View
  | .fields e =>
      if name = "__typename" || (e.attribute? name).isSome then []
      else
        match e.relationship? name with
        | some r => (entitiesOf schema (schema.targetOf r)).map .fields
        | none =>
            match (Text.dropEnd? name "Connection").bind e.relationship? with
            | some r => [.connection (entitiesOf schema (schema.targetOf r))]
            | none => []
  | .connection entities => if name = "edges" then [.edges entities] else []
  | .edges entities => if name = "node" then entities.map .fields else []

mutual
def SelectionRestated (views : List View) : Selection → Selection → Prop
  | ⟨name, responseName, args, selection, on⟩, ⟨name', responseName', args', selection', on'⟩ =>
      name = name' ∧ responseName = responseName' ∧
        DocRestated schema g (views.flatMap (View.arguments schema name)) (.record args)
          (.record args') ∧
        SelectionsRestated (views.flatMap (View.below schema name)) selection selection' ∧
        FragmentsRestated (views.flatMap (View.below schema name)) on on'
termination_by structural f => f
def SelectionsRestated (views : List View) : List Selection → List Selection → Prop
  | [], [] => True
  | f :: rest, f' :: rest' =>
      SelectionRestated views f f' ∧ SelectionsRestated views rest rest'
  | _, _ => False
termination_by structural fields => fields
def FragmentsRestated (views : List View) :
    List (String × List Selection) → List (String × List Selection) → Prop
  | [], [] => True
  | (typeName, fields) :: rest, (typeName', fields') :: rest' =>
      typeName = typeName' ∧ SelectionsRestated views fields fields' ∧
        FragmentsRestated views rest rest'
  | _, _ => False
termination_by structural fragments => fragments
end

/-- The places of the arguments of a whole request. -/
def argumentPlaces (found : Except SchemaFault Target) (kind : OperationKind) : List Place :=
  match found, kind with
  | .ok (.entity e), .create => [.creation e]
  | .ok (.entity e), .update => [.update e]
  | .ok (.entity e), .delete => [.deletion e]
  | found, _ => [.lookup (.target found)]

/-- What the selections of a whole request are about. -/
def rootViews (found : Except SchemaFault Target) (kind : OperationKind) : List View :=
  match kind with
  | .connection => [.connection (entitiesOf schema found)]
  | .aggregate => []
  | _ => (entitiesOf schema found).map .fields

/-- The second request is as the first, except for the values that it compares and assigns. -/
structure Restated (r r' : Request) : Prop where
  operation : r'.operation = r.operation
  entity : r'.entity = r.entity
  args : DocRestated schema g (argumentPlaces (schema.target r.entity) r.operation)
    (.record r.args) (.record r'.args)
  selection : SelectionsRestated schema g (rootViews schema (schema.target r.entity) r.operation)
    r.selection r'.selection
  on : FragmentsRestated schema g (rootViews schema (schema.target r.entity) r.operation)
    r.on r'.on

end Selections

end GraphSelection.Resolve
