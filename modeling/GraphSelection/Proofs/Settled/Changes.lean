import GraphSelection.Proofs.Settled.Fields
import GraphSelection.Resolve.Operation

/-!
Why reading a change fails, and with it a whole request. Against a closed schema every failure lies
in the request or in a rule, but for one: the entity that the request names at its root may be
unknown.
-/
namespace GraphSelection.Resolve

open GraphSelection Plan

section Inputs

theorem blameless_entriesOf (value : Doc) (path : String) : Blameless (entriesOf value path) := by
  cases value with
  | null => trivial
  | list items =>
    refine Blameless.mapM fun item _ => ?_
    exact (blameless_asRecord ..).bind fun members _ => trivial
  | _ => exact (blameless_asRecord ..).bind fun members _ => trivial

theorem blameless_assignment (owner : String) (find : String → Option Attribute) (name : String)
    (value : Doc) : Blameless (assignment owner find name value) := by
  unfold assignment
  split
  · split
    · rfl
    · trivial
  · rfl

theorem blameless_assignments (owner : String) (find : String → Option Attribute)
    (members : Doc.Members) : Blameless (assignments owner find members) :=
  Blameless.mapM fun _ _ => blameless_assignment ..

/-- The relationships of an input are relationships of its entity. -/
theorem settles_nodeInput (e : Entity) (path : String) (members : Doc.Members) :
    Settles (fun input => ∀ related ∈ input.related,
      ∃ key, e.relationship? key = some related.relationship) (nodeInput e path members) := by
  induction members with
  | nil => exact fun related h => absurd h List.not_mem_nil
  | cons entry rest ih =>
    obtain ⟨key, value⟩ := entry
    unfold nodeInput
    split
    · rename_i relationship hfound
      refine ih.bind fun more _ hmore => ?_
      intro related hrelated
      rcases List.mem_cons.mp hrelated with rfl | hrelated
      · exact ⟨key, hfound⟩
      · exact hmore related hrelated
    · refine (blameless_assignment ..).bind fun first _ => ?_
      exact ih.bind fun more _ hmore => hmore

end Inputs

namespace Setup

section Nested

variable {s : Setup} {owner : Entity} {r : Relationship}

theorem blameless_edgeAssignments (members : Option Doc.Members) :
    Blameless (s.edgeAssignments r members) := by
  unfold edgeAssignments
  split
  · trivial
  · split
    · rfl
    · exact blameless_assignments ..

theorem settles_link (hleads : Leads s.schema r) (action : NestedAction) (path : String) :
    Settles (fun l => l.target ∈ s.schema.entities.values) (s.link owner r action path) := by
  unfold link
  split
  · rfl
  · refine (blameless_ofSchema hleads).bind fun target htarget => ?_
    cases target with
    | entity e => exact target_known (ofSchema_ok htarget)
    | composite c => rfl

variable (hclosed : s.schema.Closed)

include hclosed in
theorem blameless_linkFilter {l : Link} (hknown : l.target ∈ s.schema.entities.values)
    (properties : Option PropertySet) (item : Placed) (action : Action) :
    Blameless (s.linkFilter l properties item action) := by
  refine (blameless_recordArg ..).bind fun members _ => ?_
  refine Blameless.bind (Blameless.mapM fun entry _ => ?_) fun parts _ => ?_
  · dsimp only [linkPart]
    split
    · trivial
    · refine Settles.bind (p := fun keys => Keys.Known s.schema keys) ?_ fun keys _ hkeys => ?_
      · split
        · exact hknown
        · trivial
        · rfl
        · rfl
      · refine (blameless_asRecord ..).bind fun members _ => ?_
        exact (blameless_requested hclosed hkeys ..).bind fun found _ => trivial
  · exact (blameless_guardFilter hclosed hknown ..).bind fun rules _ => trivial

/-- How new nodes and deletions are read: only their input makes them fail. -/
def BlamelessMaker (s : Setup) (make : NodeMaker) : Prop :=
  ∀ e item, e ∈ s.schema.entities.values → Blameless (make e item)

def BlamelessDeletions (s : Setup) (deletions : DeletionReader) : Prop :=
  ∀ e item, e ∈ s.schema.entities.values → Blameless (deletions e item)

variable (hleads : Leads s.schema r)

include hclosed hleads in
theorem blameless_nestedCreate {make : NodeMaker} (hmake : s.BlamelessMaker make)
    (item : Placed) : Blameless (s.nestedCreate make owner r item) := by
  refine (settles_link hleads ..).bind fun link _ hlink => ?_
  refine (blameless_recordArg ..).bind fun members _ => ?_
  refine (hmake _ _ hlink).bind fun node _ => ?_
  refine (blameless_guardValidations hclosed hlink ..).bind fun linked _ => ?_
  refine (blameless_recordArg ..).bind fun edge _ => ?_
  exact (blameless_edgeAssignments ..).bind fun edge _ => trivial

include hclosed hleads in
theorem blameless_nestedConnect (item : Placed) : Blameless (s.nestedConnect owner r item) := by
  refine (settles_link hleads ..).bind fun link _ hlink => ?_
  refine (blameless_linkFilter hclosed hlink ..).bind fun filter _ => ?_
  refine (blameless_guardValidations hclosed hlink ..).bind fun validations _ => ?_
  refine (blameless_recordArg ..).bind fun edge _ => ?_
  exact (blameless_edgeAssignments ..).bind fun edge _ => trivial

include hclosed hleads in
theorem blameless_nestedDisconnect (item : Placed) :
    Blameless (s.nestedDisconnect owner r item) := by
  refine (settles_link hleads ..).bind fun link _ hlink => ?_
  refine (blameless_linkFilter hclosed hlink ..).bind fun filter _ => ?_
  exact (blameless_guardValidations hclosed hlink ..).bind fun validations _ => trivial

include hclosed hleads in
theorem blameless_nestedUpdate (item : Placed) : Blameless (s.nestedUpdate owner r item) := by
  refine (settles_link hleads ..).bind fun link _ hlink => ?_
  refine (blameless_linkFilter hclosed hlink ..).bind fun filter _ => ?_
  refine (blameless_recordArg ..).bind fun update _ => ?_
  refine (blameless_recordArg ..).bind fun members _ => ?_
  refine (blameless_assignments ..).bind fun node _ => ?_
  refine (blameless_recordArg ..).bind fun members _ => ?_
  refine (blameless_edgeAssignments ..).bind fun edge _ => ?_
  refine (blameless_guardValidations hclosed hlink ..).bind fun before _ => ?_
  exact (blameless_guardValidations hclosed hlink ..).bind fun after _ => trivial

include hclosed hleads in
theorem blameless_nestedDelete {deletions : DeletionReader}
    (hdeletions : s.BlamelessDeletions deletions) (item : Placed) :
    Blameless (s.nestedDelete deletions owner r item) := by
  refine (settles_link hleads ..).bind fun link _ hlink => ?_
  refine (blameless_linkFilter hclosed hlink ..).bind fun filter _ => ?_
  refine (blameless_guardValidations hclosed hlink ..).bind fun before _ => ?_
  refine Blameless.bind ?_ fun nested _ => trivial
  refine (blameless_recordArg ..).bind fun found _ => ?_
  split
  · trivial
  · exact hdeletions _ _ hlink

end Nested

section Levels

variable {s : Setup} (hclosed : s.schema.Closed)

include hclosed in
theorem blameless_newNodeChanges {make : NodeMaker} (hmake : s.BlamelessMaker make)
    {owner : Entity} {input : RelatedInput} (hleads : Leads s.schema input.relationship) :
    Blameless (s.newNodeChanges make owner input) := by
  refine (blameless_asRecord ..).bind fun actions _ => ?_
  refine Blameless.bind (Blameless.mapM fun entry _ => ?_) fun found _ => trivial
  refine (blameless_entriesOf ..).bind fun items _ => Blameless.mapM fun item _ => ?_
  unfold newNodeChange
  split
  · exact blameless_nestedCreate hclosed hleads hmake item
  · exact blameless_nestedConnect hclosed hleads item
  · rfl

include hclosed in
theorem blameless_checkedNode {e : Entity} (he : e ∈ s.schema.entities.values)
    (assignments : List Assignment) (nested : List Mutation) :
    Blameless (s.checkedNode e assignments nested) :=
  (blameless_guardValidations hclosed he ..).bind fun _ _ => trivial

/-- At every depth only the input makes a new node fail. -/
theorem blameless_newNodeAt (hclosed : s.schema.Closed) (depth : Nat) :
    s.BlamelessMaker (s.newNodeAt depth) := by
  induction depth with
  | zero => exact fun e _ he => blameless_checkedNode hclosed he ..
  | succ depth ih =>
    intro e item he
    refine (settles_nodeInput ..).bind fun input _ hinput => ?_
    refine Blameless.bind (Blameless.mapM fun related hrelated => ?_) fun nested _ => ?_
    · obtain ⟨key, hfound⟩ := hinput related hrelated
      exact blameless_newNodeChanges hclosed ih (leads_of_known hclosed he hfound)
    · exact blameless_checkedNode hclosed he ..

theorem blameless_newNode (hclosed : s.schema.Closed) : s.BlamelessMaker s.newNode :=
  fun e item he => blameless_newNodeAt hclosed _ e item he

include hclosed in
theorem blameless_byRelationship {e : Entity} (he : e ∈ s.schema.entities.values) (item : Placed)
    {read : Relationship → Placed → Result Mutation}
    (hread : ∀ r item, Leads s.schema r → Blameless (read r item)) :
    Blameless (byRelationship e item read) := by
  refine Blameless.bind (Blameless.mapM fun entry _ => ?_) fun found _ => trivial
  dsimp only
  split
  · rfl
  · rename_i hfound
    refine (blameless_entriesOf ..).bind fun items _ => Blameless.mapM fun item _ => ?_
    exact hread _ _ (leads_of_known hclosed he hfound)

/-- At every depth only the input makes deletions fail. -/
theorem blameless_deletionsAt (hclosed : s.schema.Closed) (depth : Nat) :
    s.BlamelessDeletions (s.deletionsAt depth) := by
  induction depth with
  | zero => exact fun _ _ _ => trivial
  | succ depth ih =>
    intro e item he
    exact blameless_byRelationship hclosed he item fun r item hleads =>
      blameless_nestedDelete hclosed hleads ih item

theorem blameless_deletions (hclosed : s.schema.Closed) : s.BlamelessDeletions s.deletions :=
  fun e item he => blameless_deletionsAt hclosed _ e item he

end Levels

section Operations

variable {s : Setup} {e : Entity} (hclosed : s.schema.Closed)
variable (he : e ∈ s.schema.entities.values)

include hclosed in
theorem blameless_relatedChange (action : String) (r : Relationship) (item : Placed)
    (hleads : Leads s.schema r) : Blameless (s.relatedChange e action r item) := by
  unfold relatedChange
  split
  · exact blameless_nestedCreate hclosed hleads (blameless_newNode hclosed) item
  · exact blameless_nestedConnect hclosed hleads item
  · exact blameless_nestedDisconnect hclosed hleads item
  · exact blameless_nestedDelete hclosed hleads (blameless_deletions hclosed) item

include hclosed in
theorem blameless_updateEntry {r : Relationship} (hleads : Leads s.schema r) (item : Placed) :
    Blameless (s.updateEntry e r item) := by
  refine Blameless.bind ?_ fun own _ => ?_
  · split
    · exact (blameless_nestedUpdate hclosed hleads item).map _
    · trivial
  refine Blameless.bind (Blameless.mapM fun entry _ => ?_) fun others _ => trivial
  dsimp only [updateKey]
  split
  · trivial
  split
  · refine (blameless_entriesOf ..).bind fun items _ => Blameless.mapM fun item _ => ?_
    exact blameless_relatedChange hclosed _ r item hleads
  · rfl

include hclosed he in
theorem blameless_relatedArguments (args : Doc.Members) (path : String) :
    Blameless (s.relatedArguments e args path) := by
  refine Blameless.bind (Blameless.mapM fun action _ => ?_) fun found _ => trivial
  refine (blameless_recordArg ..).bind fun members _ => ?_
  split
  · trivial
  · exact blameless_byRelationship hclosed he _ (blameless_relatedChange hclosed action)

include hclosed he in
theorem settles_returnedFields (q : Asked) (path : String) :
    Settles GroundedFields (s.returnedFields e q path) :=
  settled_fieldsAt hclosed _ e _ path he

include hclosed he in
theorem settles_create (q : Asked) (path : String) :
    Settles (fun c => (Operation.create c).Grounded) (s.create e q path) := by
  refine (blameless_listArg ..).bind fun values _ => ?_
  dsimp only
  split
  · rfl
  refine Blameless.bind (Blameless.mapM fun value _ => ?_) fun nodes _ => ?_
  · refine (blameless_asRecord ..).bind fun members _ => ?_
    exact blameless_newNode hclosed e _ he
  refine (settles_returnedFields hclosed he ..).bind fun fields _ hfields => ⟨?_, trivial⟩
  intro part hpart
  rcases List.mem_append.mp hpart with hpart | hpart
  · obtain ⟨n, _, hmem⟩ := List.mem_flatMap.mp hpart
    rcases List.mem_cons.mp hmem with rfl | hmem
    · trivial
    · exact Mutation.allGrounded _ part hmem
  · exact hfields part hpart

include hclosed he in
theorem settles_update (q : Asked) (path : String) :
    Settles (fun u => (Operation.update u).Grounded) (s.update e q path) := by
  have hnode : (Keys.node e).Known s.schema := he
  refine (blameless_recordArg ..).bind fun members _ => ?_
  refine (settles_nodeInput ..).bind fun input _ hinput => ?_
  refine Blameless.bind (Blameless.mapM fun related hrelated => ?_) fun inside _ => ?_
  · obtain ⟨key, hfound⟩ := hinput related hrelated
    have hleads := leads_of_known hclosed he hfound
    refine (blameless_entriesOf ..).bind fun items _ => ?_
    refine Blameless.bind (Blameless.mapM fun item _ => ?_) fun found _ => trivial
    exact blameless_updateEntry hclosed hleads item
  refine (blameless_relatedArguments hclosed he ..).bind fun beside _ => ?_
  refine (blameless_recordArg ..).bind fun members _ => ?_
  refine (blameless_requested hclosed hnode ..).bind fun asked _ => ?_
  refine (blameless_guardFilter hclosed he ..).bind fun rules _ => ?_
  refine (blameless_guardValidations hclosed he ..).bind fun before _ => ?_
  refine (blameless_guardValidations hclosed he ..).bind fun after _ => ?_
  refine (settles_returnedFields hclosed he ..).bind fun fields _ hfields => ⟨?_, trivial⟩
  intro part hpart
  rcases List.mem_cons.mp hpart with rfl | hpart
  · trivial
  rcases List.mem_append.mp hpart with hpart | hpart
  · exact Mutation.allGrounded _ part hpart
  · exact hfields part hpart

include hclosed he in
theorem settles_delete (q : Asked) (path : String) :
    Settles (fun d => (Operation.delete d).Grounded) (s.delete e q path) := by
  have hnode : (Keys.node e).Known s.schema := he
  refine (blameless_recordArg ..).bind fun members _ => ?_
  refine (blameless_requested hclosed hnode ..).bind fun asked _ => ?_
  refine (blameless_guardFilter hclosed he ..).bind fun rules _ => ?_
  refine (blameless_guardValidations hclosed he ..).bind fun before _ => ?_
  refine (blameless_recordArg ..).bind fun members _ => ?_
  refine (blameless_deletions hclosed e _ he).bind fun nested _ => ⟨?_, trivial⟩
  intro part hpart
  rcases List.mem_cons.mp hpart with rfl | hpart
  · trivial
  · exact Mutation.allGrounded _ part hpart

theorem grounded_lookup {l : Lookup Field} (h : GroundedLookup none l) :
    (Operation.lookup l).Grounded := ⟨h.2, h.1⟩

include hclosed in
theorem settles_entityOperation {name : String} (ht : s.schema.target name = .ok (.entity e))
    (kind : OperationKind) (q : Asked) (path : String) :
    Settles Operation.Grounded (s.entityOperation e kind q path) := by
  have he : e ∈ s.schema.entities.values := target_known ht
  have hbelow : s.Settled (s.reader q.selection q.on) := settled_fieldsAt hclosed _
  cases kind with
  | read => exact (settles_readOf hclosed hbelow ht path).map fun _ h => grounded_lookup h
  | connection =>
    exact (settles_connectionOf hclosed hbelow ht path).map fun _ h => grounded_lookup h
  | aggregate =>
    refine (settles_rootAggregate hclosed he ..).map fun a h => ⟨?_, h.1⟩
    intro part hpart
    rw [Operation.parts, List.mem_singleton] at hpart
    exact hpart ▸ h.2
  | create => exact (settles_create hclosed he q path).map fun _ h => h
  | update => exact (settles_update hclosed he q path).map fun _ h => h
  | delete => exact (settles_delete hclosed he q path).map fun _ h => h

include hclosed in
theorem settles_compositeOperation {name : String} {c : Composite}
    (ht : s.schema.target name = .ok (.composite c)) (kind : OperationKind) (q : Asked)
    (path : String) : Settles Operation.Grounded (s.compositeOperation c kind q path) := by
  have hbelow : s.Settled (s.reader q.selection q.on) := settled_fieldsAt hclosed _
  cases kind with
  | read => exact (settles_readOf hclosed hbelow ht path).map fun _ h => grounded_lookup h
  | connection =>
    exact (settles_connectionOf hclosed hbelow ht path).map fun _ h => grounded_lookup h
  | aggregate => rfl
  | create => rfl
  | update => rfl
  | delete => rfl

/-- Once the entity of a request is known, only the request and the rules make it fail. -/
theorem settles_operation (hclosed : s.schema.Closed) {r : Request} {target : Target}
    (ht : s.schema.target r.entity = .ok target) : Settles Operation.Grounded (s.operation r) := by
  unfold operation
  rw [ht]
  cases target with
  | entity e => exact settles_entityOperation hclosed ht ..
  | composite c => exact settles_compositeOperation hclosed ht ..

end Operations

end Setup

end GraphSelection.Resolve
