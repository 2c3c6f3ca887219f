import GraphSelection.Proofs.AskedBy.Conditions
import GraphSelection.Resolve.Fields

/-!
Fields and lookups of one principal as those of another. Only the conditions of scopes hold claims,
so all else of a plan stays as it is: which attributes are read, in what order, on which page.
-/
namespace GraphSelection.Plan

variable (p : Principal)

def Scope.askedBy (scope : Scope) : Scope :=
  { scope with
    filter := scope.filter.map (Condition.askedBy p)
    validations := scope.validations.map (Condition.askedBy p) }

def Aggregate.askedBy (a : Aggregate) : Aggregate := { a with scope := a.scope.askedBy p }

mutual
def Field.askedBy : Field → Field
  | .stored key a => .stored key a
  | .computed key a => .computed key a
  | .typename key typeName => .typename key typeName
  | .lookup key l => .lookup key (Field.lookupAskedBy l)
  | .aggregate key a => .aggregate key (a.askedBy p)
def Field.eachAskedBy : List Field → List Field
  | [] => []
  | f :: rest => Field.askedBy f :: Field.eachAskedBy rest
def Field.lookupAskedBy : Lookup Field → Lookup Field
  | .read r => .read (Field.readAskedBy r)
  | .connection ⟨scope, sort, page, items⟩ =>
      .connection ⟨scope.askedBy p, sort, page, Field.itemsAskedBy items⟩
  | .composite ⟨composite, relationship, branches, sort, page⟩ =>
      .composite ⟨composite, relationship, Field.branchesAskedBy branches, sort, page⟩
  | .compositeConnection ⟨composite, relationship, branches, sort, page, items⟩ =>
      .compositeConnection ⟨composite, relationship, Field.connectionBranchesAskedBy branches, sort,
        page, Field.itemsAskedBy items⟩
def Field.readAskedBy : Read Field → Read Field
  | ⟨scope, fields, sort, page⟩ => ⟨scope.askedBy p, Field.eachAskedBy fields, sort, page⟩
def Field.branchesAskedBy : List (Read Field) → List (Read Field)
  | [] => []
  | r :: rest => Field.readAskedBy r :: Field.branchesAskedBy rest
def Field.connectionBranchesAskedBy :
    List (ConnectionBranch Field) → List (ConnectionBranch Field)
  | [] => []
  | ⟨read, edgeFields⟩ :: rest =>
      ⟨Field.readAskedBy read, edgeFields⟩ :: Field.connectionBranchesAskedBy rest
def Field.nodeAskedBy : Option (String × List Field) → Option (String × List Field)
  | none => none
  | some (key, fields) => some (key, Field.eachAskedBy fields)
def Field.itemsAskedBy : List (ConnectionItem Field) → List (ConnectionItem Field)
  | [] => []
  | .edges key node properties typeName :: rest =>
      .edges key (Field.nodeAskedBy node) properties typeName :: Field.itemsAskedBy rest
  | .aggregate key items :: rest => .aggregate key items :: Field.itemsAskedBy rest
  | .totalCount key :: rest => .totalCount key :: Field.itemsAskedBy rest
  | .pageInfo key fields :: rest => .pageInfo key fields :: Field.itemsAskedBy rest
  | .typename key typeName :: rest => .typename key typeName :: Field.itemsAskedBy rest
end

def ConnectionItem.askedBy : ConnectionItem Field → ConnectionItem Field
  | .edges key node properties typeName =>
      .edges key (Field.nodeAskedBy p node) properties typeName
  | item => item

def CompositeRead.askedBy (c : CompositeRead Field) : CompositeRead Field :=
  { c with branches := c.branches.map (Field.readAskedBy p) }

def Connection.askedBy (c : Connection Field) : Connection Field :=
  { c with scope := c.scope.askedBy p, items := c.items.map (ConnectionItem.askedBy p) }

def ConnectionBranch.askedBy (b : ConnectionBranch Field) : ConnectionBranch Field :=
  { b with read := Field.readAskedBy p b.read }

def CompositeConnection.askedBy (c : CompositeConnection Field) : CompositeConnection Field :=
  { c with
    branches := c.branches.map (ConnectionBranch.askedBy p)
    items := c.items.map (ConnectionItem.askedBy p) }

theorem Field.eachAskedBy_eq (fields : List Field) :
    Field.eachAskedBy p fields = fields.map (Field.askedBy p) := by
  induction fields with
  | nil => rfl
  | cons f rest ih => rw [Field.eachAskedBy, ih, List.map_cons]

theorem Field.branchesAskedBy_eq (branches : List (Read Field)) :
    Field.branchesAskedBy p branches = branches.map (Field.readAskedBy p) := by
  induction branches with
  | nil => rfl
  | cons r rest ih => rw [Field.branchesAskedBy, ih, List.map_cons]

theorem Field.connectionBranchesAskedBy_eq (branches : List (ConnectionBranch Field)) :
    Field.connectionBranchesAskedBy p branches = branches.map (ConnectionBranch.askedBy p) := by
  induction branches with
  | nil => rfl
  | cons b rest ih => rw [Field.connectionBranchesAskedBy, ih, List.map_cons]; rfl

theorem Field.itemsAskedBy_eq (items : List (ConnectionItem Field)) :
    Field.itemsAskedBy p items = items.map (ConnectionItem.askedBy p) := by
  induction items with
  | nil => rfl
  | cons item rest ih =>
    rw [List.map_cons, ← ih]
    cases item <;> rfl

theorem Field.key_askedBy (f : Field) : (f.askedBy p).key = f.key := by
  cases f <;> rfl

theorem Field.attributes_askedBy (fields : List Field) :
    Field.attributes (fields.map (Field.askedBy p)) = Field.attributes fields := by
  have hattr : ∀ f : Field, (f.askedBy p).attr? = f.attr? := by
    intro f
    cases f <;> rfl
  rw [Field.attributes, List.filterMap_map]
  exact congrArg (List.filterMap · fields) (funext hattr)

theorem ConnectionItem.needsPage_askedBy (items : List (ConnectionItem Field)) :
    (items.map (ConnectionItem.askedBy p)).any ConnectionItem.needsPage =
      items.any ConnectionItem.needsPage := by
  have hitem : ∀ item : ConnectionItem Field, (item.askedBy p).needsPage = item.needsPage := by
    intro item
    cases item <;> rfl
  rw [List.any_map]
  exact congrArg (List.any items) (funext hitem)

end GraphSelection.Plan

namespace GraphSelection.Resolve

open GraphSelection Plan

variable {p : Principal} {s : Setup}

theorem edgeCondition_askedBy (via : Option Via) (properties : Option PropertySet)
    (edge : Option Placed) :
    edgeCondition (s.askedBy p) via properties edge =
      Option.map (Condition.askedBy p) <$> edgeCondition s via properties edge := by
  cases edge with
  | none => rfl
  | some placed =>
    cases properties with
    | none => rfl
    | some properties =>
      exact requested_askedBy (.edge properties) (some placed.members) placed.path

section Scopes

theorem guardedScope_askedBy (e : Entity) (relationship : Option Relationship)
    (asked : List Condition) (attributes : List Attribute) (action : Action) :
    guardedScope (s.askedBy p) e relationship (asked.map (Condition.askedBy p)) attributes action =
      Scope.askedBy p <$> guardedScope s e relationship asked attributes action := by
  refine bind_both (guardFilter_askedBy ..) fun filter => ?_
  refine bind_both (guardValidations_askedBy ..) fun validations => ?_
  rw [Option.toList_map, ← List.map_append, Condition.allOf_askedBy]
  rfl

theorem guardedAggregate_askedBy (e : Entity) (relationship : Option Relationship)
    (args : Doc.Members) (items : List AggregateItem) (path : String) :
    guardedAggregate (s.askedBy p) e relationship args items path =
      Aggregate.askedBy p <$> guardedAggregate s e relationship args items path := by
  refine bind_same fun members => bind_both (requested_askedBy ..) fun asked => ?_
  rw [Option.toList_map]
  exact bind_both (guardedScope_askedBy ..) fun scope => rfl

theorem rootAggregate_askedBy (e : Entity) (args : Doc.Members) (selection : List Selection)
    (path : String) :
    rootAggregate (s.askedBy p) e args selection path =
      Aggregate.askedBy p <$> rootAggregate s e args selection path :=
  bind_same fun _ => guardedAggregate_askedBy ..

theorem relatedAggregate_askedBy (via : Via) (args : Doc.Members) (selection : List Selection)
    (path : String) :
    relatedAggregate (s.askedBy p) via args selection path =
      Aggregate.askedBy p <$> relatedAggregate s via args selection path := by
  refine bind_same fun target => ?_
  cases target with
  | composite c => rfl
  | entity target => exact bind_same fun _ => guardedAggregate_askedBy ..

end Scopes

/-- A reader of the selections under `node`, and one that reads the same for another principal. -/
def NodeReader.AskedBy (p : Principal) (read' read : NodeReader) : Prop :=
  ∀ f path, read' f path = List.map (Field.askedBy p) <$> read f path

def EdgeParts.askedBy (p : Principal) (parts : EdgeParts) : EdgeParts :=
  { parts with node := Field.nodeAskedBy p parts.node }

section Connections

variable {read' read : NodeReader}

theorem edgePart_askedBy (hread : NodeReader.AskedBy p read' read) (k : ConnectionKeys)
    (path : String) (parts : EdgeParts) (f : Selection) :
    k.edgePart read' path (EdgeParts.askedBy p parts) f =
      EdgeParts.askedBy p <$> k.edgePart read path parts f := by
  simp only [ConnectionKeys.edgePart]
  split
  · refine bind_both (hread ..) fun fields => ?_
    rw [← Field.eachAskedBy_eq]
    rfl
  · split
    · rfl
    · exact bind_same fun _ => rfl
  · rfl
  · rfl
  · rfl

theorem item_askedBy (hread : NodeReader.AskedBy p read' read) (k : ConnectionKeys)
    (path : String) (f : Selection) :
    k.item read' path f = ConnectionItem.askedBy p <$> k.item read path f := by
  simp only [ConnectionKeys.item]
  split
  · rfl
  · rfl
  · exact bind_same fun _ => rfl
  · have hparts : f.selection.foldlM (k.edgePart read' (childPath path f.key)) {} =
        EdgeParts.askedBy p <$> f.selection.foldlM (k.edgePart read (childPath path f.key)) {} :=
      foldlM_both (edgePart_askedBy hread k _) f.selection {}
    exact bind_both hparts fun _ => rfl
  · split
    · rfl
    · exact bind_same fun _ => rfl
  · rfl

theorem items_askedBy (hread : NodeReader.AskedBy p read' read) (k : ConnectionKeys)
    (selection : List Selection) (path : String) :
    k.items read' selection path =
      List.map (ConnectionItem.askedBy p) <$> k.items read selection path :=
  mapM_both (item_askedBy hread k path) selection

end Connections

/-- A reader of selections for one principal, and one that reads the same for another. -/
def FieldReader.AskedBy (p : Principal) (below' below : FieldReader) : Prop :=
  ∀ e selection path,
    below' e selection path = List.map (Field.askedBy p) <$> below e selection path

namespace Setup

theorem readScope_askedBy (e : Entity) (via : Option Via) (members : Option Doc.Members)
    (fields : List Field) (arrangement : Arrangement) (path : String) :
    (s.askedBy p).readScope e via members (fields.map (Field.askedBy p)) arrangement path =
      Field.readAskedBy p <$> s.readScope e via members fields arrangement path := by
  refine bind_both (requested_askedBy ..) fun asked => ?_
  rw [Option.toList_map, Field.attributes_askedBy]
  refine bind_both (guardedScope_askedBy ..) fun scope => ?_
  rw [← Field.eachAskedBy_eq]
  rfl

theorem withTypename_askedBy (e : Entity) (fields : List Field) :
    withTypename e (fields.map (Field.askedBy p)) =
      (withTypename e fields).map (Field.askedBy p) := by
  have hkeys : (fields.map (Field.askedBy p)).any (·.key == "__typename") =
      fields.any (·.key == "__typename") := by
    rw [List.any_map]
    exact congrArg (List.any fields) (funext fun f => by rw [Function.comp, Field.key_askedBy])
  unfold withTypename
  rw [hkeys]
  split
  · rfl
  · rw [List.map_append]
    rfl

theorem branch_askedBy (e : Entity) (via : Option Via) (rest : Option Doc.Members)
    (fields : List Field) (sort : List SortKey) (path : String) :
    (s.askedBy p).branch e via rest (fields.map (Field.askedBy p)) sort path =
      Field.readAskedBy p <$> s.branch e via rest fields sort path := by
  refine bind_same fun sort => ?_
  rw [withTypename_askedBy]
  exact readScope_askedBy ..

section Lookups

variable {below' below : FieldReader}

theorem entityRead_askedBy (hbelow : FieldReader.AskedBy p below' below) (e : Entity)
    (via : Option Via) (q : Asked) (path : String) :
    (s.askedBy p).entityRead below' e via q path =
      Field.readAskedBy p <$> s.entityRead below e via q path :=
  bind_both (hbelow ..) fun _ => bind_same fun _ => bind_same fun _ => readScope_askedBy ..

theorem compositeRead_askedBy (hbelow : FieldReader.AskedBy p below' below) (c : Composite)
    (via : Option Via) (q : Asked) (path : String) :
    (s.askedBy p).compositeRead below' c via q path =
      CompositeRead.askedBy p <$> s.compositeRead below c via q path := by
  refine bind_same fun members => bind_same fun kept => bind_same fun arrangement => ?_
  refine bind_both (mapM_both (fun k => ?_) kept) fun branches => rfl
  exact bind_both (hbelow ..) fun fields => branch_askedBy ..

theorem edgeNodeAttributes_askedBy (items : List (ConnectionItem Field)) :
    edgeNodeAttributes (items.map (ConnectionItem.askedBy p)) = edgeNodeAttributes items := by
  rw [edgeNodeAttributes, List.flatMap_map]
  refine congrArg (List.flatMap · items) (funext fun item => ?_)
  cases item with
  | edges key node properties typename =>
    cases node with
    | none => rfl
    | some node =>
      change Field.attributes (Field.eachAskedBy p node.2) = Field.attributes node.2
      rw [Field.eachAskedBy_eq, Field.attributes_askedBy]
  | _ => rfl

theorem edgeFieldsOf_askedBy (items : List (ConnectionItem Field)) :
    edgeFieldsOf (items.map (ConnectionItem.askedBy p)) = edgeFieldsOf items := by
  simp only [edgeFieldsOf, List.flatMap_map]
  refine congrArg (List.foldl _ []) (congrArg (List.flatMap · items) (funext fun item => ?_))
  cases item with
  | edges key node properties typename => cases properties <;> rfl
  | _ => rfl

theorem entityConnection_askedBy (hbelow : FieldReader.AskedBy p below' below) (e : Entity)
    (via : Option Via) (q : Asked) (path : String) :
    (s.askedBy p).entityConnection below' e via q path =
      Connection.askedBy p <$> s.entityConnection below e via q path := by
  refine bind_both (items_askedBy (fun f here => hbelow ..) ..) fun items => ?_
  refine bind_same fun parts => ?_
  refine bind_both (g := Option.map (Condition.askedBy p)) ?_ fun node => ?_
  · cases parts.node with
    | none => rfl
    | some placed => exact requested_askedBy ..
  refine bind_both (edgeCondition_askedBy ..) fun edge => ?_
  rw [Option.toList_map, Option.toList_map, ← List.map_append, edgeNodeAttributes_askedBy]
  exact bind_both (guardedScope_askedBy ..) fun scope => bind_same fun arrangement => rfl

theorem compositeConnection_askedBy (hbelow : FieldReader.AskedBy p below' below) (c : Composite)
    (via : Option Via) (q : Asked) (path : String) :
    (s.askedBy p).compositeConnection below' c via q path =
      CompositeConnection.askedBy p <$> s.compositeConnection below c via q path := by
  have hempty : NodeReader.AskedBy p (fun _ _ => .ok []) (fun _ _ => .ok []) := fun _ _ => rfl
  refine bind_both (items_askedBy hempty ..) fun items => ?_
  refine bind_same fun parts => bind_same fun kept => ?_
  refine bind_both (edgeCondition_askedBy ..) fun edge => bind_same fun arrangement => ?_
  rw [edgeFieldsOf_askedBy]
  refine bind_both (mapM_both (fun k => ?_) kept) fun branches => rfl
  refine bind_both (hbelow ..) fun fields => bind_both (branch_askedBy ..) fun read => ?_
  obtain ⟨scope, fields, sort, page⟩ := read
  simp only [Field.readAskedBy, Scope.askedBy, Condition.joined_askedBy]
  rfl

theorem readOf_askedBy (hbelow : FieldReader.AskedBy p below' below) (target : Target)
    (via : Option Via) (q : Asked) (path : String) :
    (s.askedBy p).readOf below' target via q path =
      Field.lookupAskedBy p <$> s.readOf below target via q path := by
  cases target with
  | entity e =>
    exact map_both (entityRead_askedBy hbelow ..) fun r => rfl
  | composite c =>
    refine map_both (compositeRead_askedBy hbelow ..) fun r => ?_
    rw [Field.lookupAskedBy, Field.branchesAskedBy_eq]
    rfl

theorem connectionOf_askedBy (hbelow : FieldReader.AskedBy p below' below) (target : Target)
    (via : Option Via) (q : Asked) (path : String) :
    (s.askedBy p).connectionOf below' target via q path =
      Field.lookupAskedBy p <$> s.connectionOf below target via q path := by
  cases target with
  | entity e =>
    refine map_both (entityConnection_askedBy hbelow ..) fun c => ?_
    rw [Field.lookupAskedBy, Field.itemsAskedBy_eq]
    rfl
  | composite c =>
    refine map_both (compositeConnection_askedBy hbelow ..) fun c => ?_
    rw [Field.lookupAskedBy, Field.connectionBranchesAskedBy_eq, Field.itemsAskedBy_eq]
    rfl

theorem relationshipField_askedBy (hbelow : FieldReader.AskedBy p below' below) (e : Entity)
    (path : String) (f : Selection) :
    (s.askedBy p).relationshipField below' e path f =
      Field.askedBy p <$> s.relationshipField below e path f := by
  simp only [relationshipField]
  split
  · exact bind_same fun target => bind_both (readOf_askedBy hbelow ..) fun found => rfl
  · split
    · exact bind_same fun target => bind_both (connectionOf_askedBy hbelow ..) fun found => rfl
    · split
      · exact bind_both (relatedAggregate_askedBy ..) fun found => rfl
      · rfl

theorem field_askedBy (hbelow : FieldReader.AskedBy p below' below) (e : Entity) (path : String)
    (f : Selection) :
    (s.askedBy p).field below' e path f = Field.askedBy p <$> s.field below e path f := by
  unfold field
  split
  · rfl
  · split
    · split <;> rfl
    · exact relationshipField_askedBy hbelow ..

end Lookups

/-- Selections of every depth are read alike for every principal, up to the values of claims. -/
theorem fieldsAt_askedBy (depth : Nat) :
    FieldReader.AskedBy p ((s.askedBy p).fieldsAt depth) (s.fieldsAt depth) := by
  induction depth with
  | zero => exact fun _ _ _ => rfl
  | succ depth ih => exact fun e selection path => mapM_both (field_askedBy ih e path) selection

end Setup

end GraphSelection.Resolve
