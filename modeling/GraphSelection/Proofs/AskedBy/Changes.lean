import GraphSelection.Proofs.AskedBy.Fields
import GraphSelection.Resolve.Operation

/-!
Changes and whole operations of one principal as those of another. The main result is that a plan
depends on the principal through the values of claims only: asked by another principal, a request
has the same plan with the claims of the other, or fails alike.
-/
namespace GraphSelection.Plan

variable (p : Principal)

mutual
def Mutation.askedBy : Mutation → Mutation
  | .create link ⟨assignments, nested, validations⟩ edge =>
      .create link ⟨assignments, Mutation.eachAskedBy nested,
        validations.map (Condition.askedBy p)⟩ edge
  | .connect link filter edge validations =>
      .connect link (filter.map (Condition.askedBy p)) edge (validations.map (Condition.askedBy p))
  | .disconnect link filter validations =>
      .disconnect link (filter.map (Condition.askedBy p)) (validations.map (Condition.askedBy p))
  | .update link filter before node edge after =>
      .update link (filter.map (Condition.askedBy p)) (before.map (Condition.askedBy p)) node edge
        (after.map (Condition.askedBy p))
  | .delete link filter before nested =>
      .delete link (filter.map (Condition.askedBy p)) (before.map (Condition.askedBy p))
        (Mutation.eachAskedBy nested)
def Mutation.eachAskedBy : List Mutation → List Mutation
  | [] => []
  | m :: rest => Mutation.askedBy m :: Mutation.eachAskedBy rest
end

theorem Mutation.eachAskedBy_eq (nested : List Mutation) :
    Mutation.eachAskedBy p nested = nested.map (Mutation.askedBy p) := by
  induction nested with
  | nil => rfl
  | cons m rest ih => rw [Mutation.eachAskedBy, ih, List.map_cons]

def NewNode.askedBy (n : NewNode Mutation) : NewNode Mutation :=
  { n with
    nested := n.nested.map (Mutation.askedBy p)
    validations := n.validations.map (Condition.askedBy p) }

def Create.askedBy (c : Create) : Create :=
  { c with
    nodes := c.nodes.map (NewNode.askedBy p)
    fields := c.fields.map (Field.askedBy p) }

def Update.askedBy (u : Update) : Update :=
  { u with
    filter := u.filter.map (Condition.askedBy p)
    before := u.before.map (Condition.askedBy p)
    nested := u.nested.map (Mutation.askedBy p)
    after := u.after.map (Condition.askedBy p)
    fields := u.fields.map (Field.askedBy p) }

def Delete.askedBy (d : Delete) : Delete :=
  { d with
    filter := d.filter.map (Condition.askedBy p)
    before := d.before.map (Condition.askedBy p)
    nested := d.nested.map (Mutation.askedBy p) }

def Operation.askedBy : Operation → Operation
  | .lookup l => .lookup (Field.lookupAskedBy p l)
  | .aggregate a => .aggregate (a.askedBy p)
  | .create c => .create (c.askedBy p)
  | .update u => .update (u.askedBy p)
  | .delete d => .delete (d.askedBy p)

end GraphSelection.Plan

namespace GraphSelection.Resolve.Setup

open GraphSelection Plan

variable {p : Principal} {s : Setup}

section Nested

theorem linkPart_askedBy (l : Link) (properties : Option PropertySet) (path : String)
    (entry : String × Doc) :
    (s.askedBy p).linkPart l properties path entry =
      List.map (Condition.askedBy p) <$> s.linkPart l properties path entry := by
  obtain ⟨key, value⟩ := entry
  simp only [linkPart]
  split
  · rfl
  · refine bind_same fun keys => bind_same fun members => ?_
    refine bind_both (requested_askedBy ..) fun found => ?_
    rw [Option.toList_map]
    rfl

theorem linkFilter_askedBy (l : Link) (properties : Option PropertySet) (item : Placed)
    (action : Action) :
    (s.askedBy p).linkFilter l properties item action =
      Option.map (Condition.askedBy p) <$> s.linkFilter l properties item action := by
  refine bind_same fun members => ?_
  refine bind_both (mapM_both (linkPart_askedBy l properties _) _) fun parts => ?_
  refine bind_both (guardFilter_askedBy ..) fun rules => ?_
  rw [← List.map_flatten, Option.toList_map, ← List.map_append, Condition.allOf_askedBy]
  rfl

/-- A maker of new nodes for one principal, and one that makes the same for another. -/
def NodeMaker.AskedBy (p : Principal) (make' make : NodeMaker) : Prop :=
  ∀ e item, make' e item = NewNode.askedBy p <$> make e item

/-- A reader of deletions for one principal, and one that reads the same for another. -/
def DeletionReader.AskedBy (p : Principal) (deletions' deletions : DeletionReader) : Prop :=
  ∀ e item, deletions' e item = List.map (Mutation.askedBy p) <$> deletions e item

theorem nestedCreate_askedBy {make' make : NodeMaker} (hmake : NodeMaker.AskedBy p make' make)
    (owner : Entity) (r : Relationship) (item : Placed) :
    (s.askedBy p).nestedCreate make' owner r item =
      Mutation.askedBy p <$> s.nestedCreate make owner r item := by
  refine bind_same fun link => bind_same fun members => bind_both (hmake ..) fun node => ?_
  refine bind_both (guardValidations_askedBy ..) fun linked => ?_
  refine bind_same fun members => bind_same fun edge => ?_
  simp only [NewNode.askedBy, ← List.map_append, ← Mutation.eachAskedBy_eq]
  rfl

theorem nestedConnect_askedBy (owner : Entity) (r : Relationship) (item : Placed) :
    (s.askedBy p).nestedConnect owner r item =
      Mutation.askedBy p <$> s.nestedConnect owner r item := by
  refine bind_same fun link => bind_both (linkFilter_askedBy ..) fun filter => ?_
  refine bind_both (guardValidations_askedBy ..) fun validations => ?_
  exact bind_same fun members => bind_same fun edge => rfl

theorem nestedDisconnect_askedBy (owner : Entity) (r : Relationship) (item : Placed) :
    (s.askedBy p).nestedDisconnect owner r item =
      Mutation.askedBy p <$> s.nestedDisconnect owner r item := by
  refine bind_same fun link => bind_both (linkFilter_askedBy ..) fun filter => ?_
  exact bind_both (guardValidations_askedBy ..) fun validations => rfl

theorem nestedUpdate_askedBy (owner : Entity) (r : Relationship) (item : Placed) :
    (s.askedBy p).nestedUpdate owner r item =
      Mutation.askedBy p <$> s.nestedUpdate owner r item := by
  refine bind_same fun link => bind_both (linkFilter_askedBy ..) fun filter => ?_
  refine bind_same fun update => bind_same fun members => bind_same fun node => ?_
  refine bind_same fun members => bind_same fun edge => ?_
  refine bind_both (guardValidations_askedBy ..) fun before => ?_
  exact bind_both (guardValidations_askedBy ..) fun after => rfl

theorem nestedDelete_askedBy {deletions' deletions : DeletionReader}
    (hdeletions : DeletionReader.AskedBy p deletions' deletions) (owner : Entity)
    (r : Relationship) (item : Placed) :
    (s.askedBy p).nestedDelete deletions' owner r item =
      Mutation.askedBy p <$> s.nestedDelete deletions owner r item := by
  refine bind_same fun link => bind_both (linkFilter_askedBy ..) fun filter => ?_
  refine bind_both (guardValidations_askedBy ..) fun before => ?_
  refine bind_both (g := List.map (Mutation.askedBy p)) ?_ fun nested => ?_
  · refine bind_same fun members => ?_
    cases members with
    | none => rfl
    | some members => exact hdeletions ..
  rw [← Mutation.eachAskedBy_eq]
  rfl

theorem newNodeChange_askedBy {make' make : NodeMaker} (hmake : NodeMaker.AskedBy p make' make)
    (owner : Entity) (r : Relationship) (action path : String) (item : Placed) :
    (s.askedBy p).newNodeChange make' owner r action path item =
      Mutation.askedBy p <$> s.newNodeChange make owner r action path item := by
  unfold newNodeChange
  split
  · exact nestedCreate_askedBy hmake ..
  · exact nestedConnect_askedBy ..
  · rfl

theorem newNodeChanges_askedBy {make' make : NodeMaker} (hmake : NodeMaker.AskedBy p make' make)
    (owner : Entity) (input : RelatedInput) :
    (s.askedBy p).newNodeChanges make' owner input =
      List.map (Mutation.askedBy p) <$> s.newNodeChanges make owner input := by
  refine bind_same fun actions => flatten_both (mapM_both (fun entry => ?_) actions)
  exact bind_same fun items => mapM_both (fun item => newNodeChange_askedBy hmake ..) items

theorem checkedNode_askedBy (e : Entity) (assignments : List Assignment)
    (nested : List Mutation) :
    (s.askedBy p).checkedNode e assignments (nested.map (Mutation.askedBy p)) =
      NewNode.askedBy p <$> s.checkedNode e assignments nested :=
  bind_both (guardValidations_askedBy ..) fun _ => rfl

/-- New nodes of every depth are read alike for every principal, up to the values of claims. -/
theorem newNodeAt_askedBy (depth : Nat) :
    NodeMaker.AskedBy p ((s.askedBy p).newNodeAt depth) (s.newNodeAt depth) := by
  induction depth with
  | zero => exact fun e item => checkedNode_askedBy e [] []
  | succ depth ih =>
    intro e item
    refine bind_same fun input => ?_
    refine bind_both (mapM_both (newNodeChanges_askedBy ih e) input.related) fun nested => ?_
    rw [← List.map_flatten]
    exact checkedNode_askedBy ..

theorem newNode_askedBy : NodeMaker.AskedBy p (s.askedBy p).newNode s.newNode :=
  fun e item => newNodeAt_askedBy _ e item

theorem byRelationship_askedBy {read' read : Relationship → Placed → Result Mutation}
    (hread : ∀ r item, read' r item = Mutation.askedBy p <$> read r item) (e : Entity)
    (item : Placed) :
    byRelationship e item read' =
      List.map (Mutation.askedBy p) <$> byRelationship e item read := by
  refine flatten_both (mapM_both (fun entry => ?_) item.members)
  obtain ⟨name, value⟩ := entry
  simp only
  split
  · rfl
  · exact bind_same fun items => mapM_both (hread _) items

/-- Deletions of every depth are read alike for every principal, up to the values of claims. -/
theorem deletionsAt_askedBy (depth : Nat) :
    DeletionReader.AskedBy p ((s.askedBy p).deletionsAt depth) (s.deletionsAt depth) := by
  induction depth with
  | zero => exact fun _ _ => rfl
  | succ depth ih => exact fun e item => byRelationship_askedBy (nestedDelete_askedBy ih e) e item

theorem deletions_askedBy : DeletionReader.AskedBy p (s.askedBy p).deletions s.deletions :=
  fun e item => deletionsAt_askedBy _ e item

end Nested

section Root

theorem returnedFields_askedBy (e : Entity) (q : Asked) (path : String) :
    (s.askedBy p).returnedFields e q path =
      List.map (Field.askedBy p) <$> s.returnedFields e q path :=
  fieldsAt_askedBy _ e (q.fieldsFor e) path

theorem create_askedBy (e : Entity) (q : Asked) (path : String) :
    (s.askedBy p).create e q path = Create.askedBy p <$> s.create e q path := by
  simp only [create]
  refine bind_same fun values => ?_
  split
  · rfl
  · refine bind_both (mapM_both (fun entry => bind_same fun members => newNode_askedBy e _) _)
      fun nodes => ?_
    exact bind_both (returnedFields_askedBy ..) fun fields => rfl

theorem relatedChange_askedBy (e : Entity) (action : String) (r : Relationship) (item : Placed) :
    (s.askedBy p).relatedChange e action r item =
      Mutation.askedBy p <$> s.relatedChange e action r item := by
  unfold relatedChange
  split
  · exact nestedCreate_askedBy newNode_askedBy ..
  · exact nestedConnect_askedBy ..
  · exact nestedDisconnect_askedBy ..
  · exact nestedDelete_askedBy deletions_askedBy ..

theorem updateKey_askedBy (e : Entity) (r : Relationship) (path key : String) (value : Doc) :
    (s.askedBy p).updateKey e r path key value =
      List.map (Mutation.askedBy p) <$> s.updateKey e r path key value := by
  unfold updateKey
  simp only
  split
  · rfl
  · split
    · exact bind_same fun items => mapM_both (relatedChange_askedBy e key r) items
    · rfl

theorem updateEntry_askedBy (e : Entity) (r : Relationship) (item : Placed) :
    (s.askedBy p).updateEntry e r item =
      List.map (Mutation.askedBy p) <$> s.updateEntry e r item := by
  have hown : ∀ updates : Bool,
      (if updates then ((s.askedBy p).nestedUpdate e r item).map ([·]) else .ok [] :
        Result (List Mutation)) = List.map (Mutation.askedBy p) <$>
      (if updates then (s.nestedUpdate e r item).map ([·]) else .ok [] :
        Result (List Mutation)) := by
    intro updates
    split
    · exact map_both (nestedUpdate_askedBy ..) fun m => rfl
    · rfl
  refine bind_both (hown _) fun own => ?_
  refine bind_both (mapM_both (fun entry => updateKey_askedBy ..) item.members) fun others => ?_
  rw [← List.map_flatten, ← List.map_append]
  rfl

theorem relatedUpdates_askedBy (e : Entity) (input : RelatedInput) :
    (s.askedBy p).relatedUpdates e input =
      List.map (Mutation.askedBy p) <$> s.relatedUpdates e input :=
  bind_same fun items => flatten_both (mapM_both (updateEntry_askedBy e _) items)

theorem relatedArguments_askedBy (e : Entity) (args : Doc.Members) (path : String) :
    (s.askedBy p).relatedArguments e args path =
      List.map (Mutation.askedBy p) <$> s.relatedArguments e args path := by
  refine flatten_both (mapM_both (fun action => bind_same fun members => ?_) relatedActions)
  cases members with
  | none => rfl
  | some members => exact byRelationship_askedBy (relatedChange_askedBy e action) ..

theorem update_askedBy (e : Entity) (q : Asked) (path : String) :
    (s.askedBy p).update e q path = Update.askedBy p <$> s.update e q path := by
  refine bind_same fun members => bind_same fun input => ?_
  refine bind_both (mapM_both (relatedUpdates_askedBy e) input.related) fun inside => ?_
  refine bind_both (relatedArguments_askedBy ..) fun beside => bind_same fun members => ?_
  refine bind_both (requested_askedBy ..) fun asked => ?_
  refine bind_both (guardFilter_askedBy ..) fun rules => ?_
  refine bind_both (guardValidations_askedBy ..) fun before => ?_
  refine bind_both (guardValidations_askedBy ..) fun after => ?_
  refine bind_both (returnedFields_askedBy ..) fun fields => ?_
  rw [← List.map_flatten, ← List.map_append, Condition.joined_askedBy]
  rfl

theorem delete_askedBy (e : Entity) (q : Asked) (path : String) :
    (s.askedBy p).delete e q path = Delete.askedBy p <$> s.delete e q path := by
  refine bind_same fun members => bind_both (requested_askedBy ..) fun asked => ?_
  refine bind_both (guardFilter_askedBy ..) fun rules => ?_
  refine bind_both (guardValidations_askedBy ..) fun before => bind_same fun members => ?_
  refine bind_both (deletions_askedBy ..) fun nested => ?_
  rw [Condition.joined_askedBy]
  rfl

theorem entityOperation_askedBy (e : Entity) (kind : OperationKind) (q : Asked)
    (path : String) :
    (s.askedBy p).entityOperation e kind q path =
      Operation.askedBy p <$> s.entityOperation e kind q path := by
  cases kind with
  | read => exact map_both (readOf_askedBy (fieldsAt_askedBy _) ..) fun l => rfl
  | connection => exact map_both (connectionOf_askedBy (fieldsAt_askedBy _) ..) fun l => rfl
  | aggregate => exact map_both (rootAggregate_askedBy ..) fun a => rfl
  | create => exact map_both (create_askedBy ..) fun c => rfl
  | update => exact map_both (update_askedBy ..) fun u => rfl
  | delete => exact map_both (delete_askedBy ..) fun d => rfl

theorem compositeOperation_askedBy (c : Composite) (kind : OperationKind) (q : Asked)
    (path : String) :
    (s.askedBy p).compositeOperation c kind q path =
      Operation.askedBy p <$> s.compositeOperation c kind q path := by
  cases kind with
  | read => exact map_both (readOf_askedBy (fieldsAt_askedBy _) ..) fun l => rfl
  | connection => exact map_both (connectionOf_askedBy (fieldsAt_askedBy _) ..) fun l => rfl
  | _ => rfl

/-- A plan depends on the principal through the values of claims only. -/
theorem operation_askedBy (p : Principal) (s : Setup) (r : Request) :
    (s.askedBy p).operation r = Operation.askedBy p <$> s.operation r := by
  refine bind_same fun target => ?_
  cases target with
  | entity e => exact entityOperation_askedBy ..
  | composite c => exact compositeOperation_askedBy ..

end Root

end GraphSelection.Resolve.Setup
