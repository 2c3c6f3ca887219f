import GraphSelection.Proofs.Outcomes
import GraphSelection.Resolve.Operation

/-!
What nested changes may do. A change below the node of an entity follows a relationship that the
entity declares and that permits the action, and it leads to the one entity that the relationship is
declared for. What it writes are stored attributes: of that entity, and of the property set of the
relationship where there is one. This holds at every depth, since a new node is the owner of the
changes nested in it, and so is a node that is deleted.
-/
namespace GraphSelection.Stage

/-- Members get to know new members only, in some year. -/
def newcomer : Entity :=
  { name := "Member"
    labels := ["Member"]
    attributes := [("name", { name := "name", kind := .string })]
    relationships :=
      [("knows",
        { name := "knows"
          graphType := "KNOWS"
          direction := .outgoing
          target := "Member"
          isList := true
          properties := some "Since"
          nestedActions := [.create] })]
    rules := []
    pages := none }

def membership : Resolve.Setup :=
  ⟨{ entities := [("Member", newcomer)]
     composites := []
     propertySets :=
       [("Since",
         { name := "Since", attributes := [("year", { name := "year", kind := .int })] })] },
    {}, {}⟩

/-- A new member who knows new members. -/
def met (name : String) (year : Int) (others : List Doc) : Doc :=
  .record
    [("node", .record [("name", .text name), ("knows", .record [("create", .list others)])]),
     ("edge", .record [("year", .int year)])]

/-- Anne is new and knows Jane, who is new as well and knows Emma. -/
def introduced : Request :=
  { operation := .create
    entity := "Member"
    args :=
      [("input", .record
        [("name", .text "Anne"),
         ("knows", .record [("create", met "Jane" 1815 [met "Emma" 1816 []])])])] }

end GraphSelection.Stage

namespace GraphSelection.Plan

namespace Mutation

def action : Mutation → NestedAction
  | .create _ _ _ => .create
  | .connect _ _ _ _ => .connect
  | .disconnect _ _ _ => .disconnect
  | .update _ _ _ _ _ _ => .update
  | .delete _ _ _ _ => .delete

/-- What is written to the node at the end of the relationship. -/
def onNode : Mutation → List Assignment
  | .create _ node _ => node.assignments
  | .update _ _ _ node _ _ => node
  | _ => []

/-- What is written to the relationship itself. -/
def onEdge : Mutation → List Assignment
  | .create _ _ edge => edge
  | .connect _ _ edge _ => edge
  | .update _ _ _ _ edge _ => edge
  | _ => []

/-- The changes below the node at the end of the relationship. -/
def nested : Mutation → List Mutation
  | .create _ node _ => node.nested
  | .delete _ _ _ nested => nested
  | _ => []

end Mutation

/-- The change stands below a node of the owner: it is one of the changes of a node, or stands
below the node that one of them leads to. -/
inductive Nests : Entity → List Mutation → Entity → Mutation → Prop
  | here {e : Entity} {ms : List Mutation} {m : Mutation} (h : m ∈ ms) : Nests e ms e m
  | inside {e owner : Entity} {ms : List Mutation} {m m' : Mutation} (h : m ∈ ms)
      (h' : Nests m.link.target m.nested owner m') : Nests e ms owner m'

/-- The nested changes of an operation, each with the entity of the node around it. -/
def Operation.Changes (owner : Entity) (m : Mutation) : Operation → Prop
  | .create c => ∃ n ∈ c.nodes, Nests c.entity n.nested owner m
  | .update u => Nests u.entity u.nested owner m
  | .delete d => Nests d.entity d.nested owner m
  | .lookup _ | .aggregate _ => False

/-- Only stored attributes are written, of those that can be found by a name. -/
def WritesStored (find : String → Option Attribute) (written : List Assignment) : Prop :=
  ∀ a ∈ written, (∃ name, find name = some a.target) ∧ a.target.isComputed = false

/-- Properties of a relationship are written only where it has a property set. -/
def WritesEdge (schema : Schema) (r : Relationship) (written : List Assignment) : Prop :=
  written = [] ∨
    ∃ properties, schema.propertiesOf r = some properties ∧
      WritesStored properties.attribute? written

/-- What a change below a node of the owner may do. -/
structure Mutation.Permitted (schema : Schema) (owner : Entity) (m : Mutation) : Prop where
  declared : ∃ name, owner.relationship? name = some m.link.relationship
  allowed : m.link.relationship.allows m.action = true
  target : schema.targetOf m.link.relationship = .ok (.entity m.link.target)
  node : WritesStored m.link.target.attribute? m.onNode
  edge : WritesEdge schema m.link.relationship m.onEdge

/-- All changes below a node of the entity are permitted. -/
def AllPermitted (schema : Schema) (e : Entity) (ms : List Mutation) : Prop :=
  ∀ owner m, Nests e ms owner m → m.Permitted schema owner

/-- The change is permitted, and so are those inside it. -/
structure PermittedBelow (schema : Schema) (owner : Entity) (m : Mutation) : Prop where
  own : m.Permitted schema owner
  nested : AllPermitted schema m.link.target m.nested

section Nested

variable {schema : Schema} {e owner : Entity}

theorem writesStored_nil (find : String → Option Attribute) : WritesStored find [] :=
  fun _ ha => absurd ha List.not_mem_nil

theorem allPermitted_nil : AllPermitted schema e [] := by
  intro owner m h
  cases h with
  | here h => exact absurd h List.not_mem_nil
  | inside h _ => exact absurd h List.not_mem_nil

theorem allPermitted_iff {ms : List Mutation} :
    AllPermitted schema e ms ↔ ∀ m ∈ ms, PermittedBelow schema e m := by
  constructor
  · intro h m hm
    exact ⟨h e m (.here hm), fun owner m' hm' => h owner m' (.inside hm hm')⟩
  · intro h owner m hm
    cases hm with
    | here hm => exact (h m hm).own
    | inside hm hm' => exact (h _ hm).nested owner m hm'

theorem allPermitted_append {ms ms' : List Mutation} (h : AllPermitted schema e ms)
    (h' : AllPermitted schema e ms') : AllPermitted schema e (ms ++ ms') := by
  rw [allPermitted_iff] at h h' ⊢
  exact List.forall_mem_append.mpr ⟨h, h'⟩

theorem allPermitted_flatten {groups : List (List Mutation)}
    (h : ∀ ms ∈ groups, AllPermitted schema e ms) : AllPermitted schema e groups.flatten := by
  rw [allPermitted_iff]
  intro m hm
  obtain ⟨ms, hms, hm⟩ := List.mem_flatten.mp hm
  exact allPermitted_iff.mp (h ms hms) m hm

end Nested

end GraphSelection.Plan

namespace GraphSelection.Resolve

open GraphSelection Plan

section Inputs

theorem assignment_stored {owner name : String} {find : String → Option Attribute} {value : Doc}
    {a : Assignment} (h : assignment owner find name value = .ok a) :
    (∃ name, find name = some a.target) ∧ a.target.isComputed = false := by
  unfold assignment at h
  split at h
  · rename_i found hfound
    by_cases hcomputed : found.isComputed = true
    · simp [hcomputed] at h
    · simp only [hcomputed, Bool.false_eq_true, if_false] at h
      cases h
      exact ⟨⟨name, hfound⟩, by simpa using hcomputed⟩
  · cases h

theorem assignments_stored {owner : String} {find : String → Option Attribute}
    {members : Doc.Members} {written : List Assignment}
    (h : assignments owner find members = .ok written) : WritesStored find written := by
  intro a ha
  obtain ⟨⟨name, value⟩, _, hmade⟩ := mem_of_mapM_ok h a ha
  exact assignment_stored hmade

/-- The members of an input that name a relationship of the entity are its changes; the others are
written. -/
theorem nodeInput_ok {e : Entity} {path : String} {members : Doc.Members} {input : NodeInput}
    (h : nodeInput e path members = .ok input) :
    WritesStored e.attribute? input.assignments ∧
      ∀ related ∈ input.related, ∃ name, e.relationship? name = some related.relationship := by
  induction members generalizing input with
  | nil =>
    cases h
    exact ⟨writesStored_nil _, fun _ h => absurd h List.not_mem_nil⟩
  | cons member rest ih =>
    obtain ⟨key, value⟩ := member
    unfold nodeInput at h
    split at h
    · rename_i r hr
      simp only [except_bind_ok, except_pure_ok] at h
      obtain ⟨more, hmore, rfl⟩ := h
      obtain ⟨hstored, hrelated⟩ := ih hmore
      exact ⟨hstored, List.forall_mem_cons.mpr ⟨⟨key, hr⟩, hrelated⟩⟩
    · simp only [except_bind_ok, except_pure_ok] at h
      obtain ⟨first, hfirst, more, hmore, rfl⟩ := h
      obtain ⟨hstored, hrelated⟩ := ih hmore
      exact ⟨List.forall_mem_cons.mpr ⟨assignment_stored hfirst, hstored⟩, hrelated⟩

end Inputs

namespace Setup

variable {s : Setup} {owner e : Entity} {r : Relationship} {item : Placed} {m : Mutation}
  {ms : List Mutation} {path : String}

theorem edgeAssignments_permitted {members : Option Doc.Members} {written : List Assignment}
    (h : s.edgeAssignments r members = .ok written) : WritesEdge s.schema r written := by
  unfold edgeAssignments at h
  split at h
  · cases h
    exact .inl rfl
  · split at h
    · cases h
    · rename_i properties hproperties
      exact .inr ⟨properties, hproperties, assignments_stored h⟩

theorem link_permitted {action : NestedAction} {l : Link}
    (h : s.link owner r action path = .ok l) :
    l.relationship = r ∧ r.allows action = true ∧ s.schema.targetOf r = .ok (.entity l.target) := by
  unfold link at h
  split at h
  · simp only [except_bind_ok, except_throw_ok, false_and, exists_false] at h
  · rename_i hallowed
    simp only [except_bind_ok] at h
    obtain ⟨target, htarget, h⟩ := h
    cases target with
    | entity target =>
      simp only [except_pure_ok] at h
      subst h
      refine ⟨rfl, by simpa using hallowed, ?_⟩
      unfold ofSchema at htarget
      split at htarget
      · cases htarget
        assumption
      · cases htarget
    | composite c => simp only [except_throw_ok] at h

/-- Below a declared relationship, what a link leads to is known from the schema. -/
theorem permitted_of_link (hr : ∃ name, owner.relationship? name = some r)
    (hlink : s.link owner r m.action path = .ok m.link)
    (hnode : WritesStored m.link.target.attribute? m.onNode)
    (hedge : WritesEdge s.schema r m.onEdge) : m.Permitted s.schema owner := by
  obtain ⟨hsame, hallowed, htarget⟩ := link_permitted hlink
  exact ⟨hsame ▸ hr, hsame ▸ hallowed, hsame ▸ htarget, hnode, hsame ▸ hedge⟩

/-- New nodes write stored attributes, and the changes nested in them are permitted. -/
def PermitsNodes (s : Setup) (make : NodeMaker) : Prop :=
  ∀ e item n, make e item = .ok n →
    WritesStored e.attribute? n.assignments ∧ AllPermitted s.schema e n.nested

def PermitsDeletions (s : Setup) (deletions : DeletionReader) : Prop :=
  ∀ e item ms, deletions e item = .ok ms → AllPermitted s.schema e ms

section Changes

variable (hr : ∃ name, owner.relationship? name = some r)
include hr

theorem nestedCreate_permitted {make : NodeMaker} (hmake : s.PermitsNodes make)
    (h : s.nestedCreate make owner r item = .ok m) : PermittedBelow s.schema owner m := by
  simp only [nestedCreate, except_bind_ok, except_pure_ok] at h
  obtain ⟨link, hlink, _, _, n, hn, _, _, _, _, edge, hedge, rfl⟩ := h
  obtain ⟨hstored, hnested⟩ := hmake _ _ _ hn
  exact ⟨permitted_of_link hr hlink hstored (edgeAssignments_permitted hedge), hnested⟩

theorem nestedConnect_permitted (h : s.nestedConnect owner r item = .ok m) :
    PermittedBelow s.schema owner m := by
  simp only [nestedConnect, except_bind_ok, except_pure_ok] at h
  obtain ⟨link, hlink, _, _, _, _, _, _, edge, hedge, rfl⟩ := h
  exact ⟨permitted_of_link hr hlink (writesStored_nil _) (edgeAssignments_permitted hedge),
    allPermitted_nil⟩

theorem nestedDisconnect_permitted (h : s.nestedDisconnect owner r item = .ok m) :
    PermittedBelow s.schema owner m := by
  simp only [nestedDisconnect, except_bind_ok, except_pure_ok] at h
  obtain ⟨link, hlink, _, _, _, _, rfl⟩ := h
  exact ⟨permitted_of_link hr hlink (writesStored_nil _) (.inl rfl), allPermitted_nil⟩

theorem nestedUpdate_permitted (h : s.nestedUpdate owner r item = .ok m) :
    PermittedBelow s.schema owner m := by
  simp only [nestedUpdate, except_bind_ok, except_pure_ok] at h
  obtain ⟨link, hlink, _, _, _, _, _, _, node, hnode, _, _, edge, hedge, _, _, _, _, rfl⟩ := h
  exact ⟨permitted_of_link hr hlink (assignments_stored hnode) (edgeAssignments_permitted hedge),
    allPermitted_nil⟩

theorem nestedDelete_permitted {deletions : DeletionReader}
    (hdeletions : s.PermitsDeletions deletions)
    (h : s.nestedDelete deletions owner r item = .ok m) : PermittedBelow s.schema owner m := by
  simp only [nestedDelete, except_bind_ok, except_pure_ok] at h
  obtain ⟨link, hlink, _, _, _, _, nested, ⟨members, _, hnested⟩, rfl⟩ := h
  refine ⟨permitted_of_link hr hlink (writesStored_nil _) (.inl rfl), ?_⟩
  cases members with
  | none =>
    cases hnested
    exact allPermitted_nil
  | some members => exact hdeletions _ _ _ hnested

end Changes

theorem mapM_permitted {α : Type} {f : α → Result Mutation} {xs : List α}
    (hf : ∀ x m, f x = .ok m → PermittedBelow s.schema owner m) (h : xs.mapM f = .ok ms) :
    AllPermitted s.schema owner ms := by
  rw [allPermitted_iff]
  intro m hm
  obtain ⟨x, _, hx⟩ := mem_of_mapM_ok h m hm
  exact hf x m hx

theorem newNodeChanges_permitted {make : NodeMaker} (hmake : s.PermitsNodes make)
    {input : RelatedInput} (hr : ∃ name, owner.relationship? name = some input.relationship)
    (h : s.newNodeChanges make owner input = .ok ms) : AllPermitted s.schema owner ms := by
  simp only [newNodeChanges, except_bind_ok, except_pure_ok] at h
  obtain ⟨actions, _, found, hfound, rfl⟩ := h
  refine allPermitted_flatten fun ms hms => ?_
  obtain ⟨⟨action, value⟩, _, hentry⟩ := mem_of_mapM_ok hfound ms hms
  simp only [except_bind_ok] at hentry
  obtain ⟨items, _, hitems⟩ := hentry
  refine mapM_permitted (fun item m hm => ?_) hitems
  unfold newNodeChange at hm
  split at hm
  · exact nestedCreate_permitted hr hmake hm
  · exact nestedConnect_permitted hr hm
  · cases hm

/-- The induction is on the depth to which new nodes are read. -/
theorem newNodeAt_permitted (s : Setup) (depth : Nat) : s.PermitsNodes (s.newNodeAt depth) := by
  induction depth with
  | zero =>
    intro e item n h
    simp only [newNodeAt, checkedNode, except_bind_ok, except_pure_ok] at h
    obtain ⟨_, _, rfl⟩ := h
    exact ⟨writesStored_nil _, allPermitted_nil⟩
  | succ depth ih =>
    intro e item n h
    simp only [newNodeAt, checkedNode, except_bind_ok, except_pure_ok] at h
    obtain ⟨input, hinput, nested, hnested, _, _, rfl⟩ := h
    obtain ⟨hstored, hrelated⟩ := nodeInput_ok hinput
    refine ⟨hstored, allPermitted_flatten fun ms hms => ?_⟩
    obtain ⟨related, hmem, hchanges⟩ := mem_of_mapM_ok hnested ms hms
    exact newNodeChanges_permitted ih (hrelated related hmem) hchanges

theorem byRelationship_permitted {read : Relationship → Placed → Result Mutation}
    (hread : ∀ r, (∃ name, e.relationship? name = some r) → ∀ item m, read r item = .ok m →
      PermittedBelow s.schema e m)
    (h : byRelationship e item read = .ok ms) : AllPermitted s.schema e ms := by
  simp only [byRelationship, except_bind_ok, except_pure_ok] at h
  obtain ⟨found, hfound, rfl⟩ := h
  refine allPermitted_flatten fun ms hms => ?_
  obtain ⟨⟨name, value⟩, _, hentry⟩ := mem_of_mapM_ok hfound ms hms
  simp only at hentry
  split at hentry
  · simp only [except_throw_ok] at hentry
  · rename_i r hr
    simp only [except_bind_ok] at hentry
    obtain ⟨items, _, hitems⟩ := hentry
    exact mapM_permitted (hread r ⟨name, hr⟩) hitems

/-- The induction is on the depth to which deletions are read. -/
theorem deletionsAt_permitted (s : Setup) (depth : Nat) :
    s.PermitsDeletions (s.deletionsAt depth) := by
  induction depth with
  | zero =>
    intro e item ms h
    cases h
    exact allPermitted_nil
  | succ depth ih =>
    intro e item ms h
    exact byRelationship_permitted (fun _ hr _ _ hm => nestedDelete_permitted hr ih hm) h

section Operations

variable {q : Asked}

theorem relatedChange_permitted (hr : ∃ name, e.relationship? name = some r) {action : String}
    (h : s.relatedChange e action r item = .ok m) : PermittedBelow s.schema e m := by
  unfold relatedChange at h
  split at h
  · exact nestedCreate_permitted hr (fun e item n => newNodeAt_permitted s _ e item n) h
  · exact nestedConnect_permitted hr h
  · exact nestedDisconnect_permitted hr h
  · exact nestedDelete_permitted hr (fun e item ms => deletionsAt_permitted s _ e item ms) h

theorem updateKey_permitted (hr : ∃ name, e.relationship? name = some r) {key : String}
    {value : Doc} (h : s.updateKey e r path key value = .ok ms) : AllPermitted s.schema e ms := by
  unfold updateKey at h
  simp only at h
  split at h
  · cases h
    exact allPermitted_nil
  · split at h
    · simp only [except_bind_ok] at h
      obtain ⟨items, _, hitems⟩ := h
      exact mapM_permitted (fun _ _ => relatedChange_permitted hr) hitems
    · simp only [except_throw_ok] at h

theorem updateEntry_permitted (hr : ∃ name, e.relationship? name = some r)
    (h : s.updateEntry e r item = .ok ms) : AllPermitted s.schema e ms := by
  simp only [updateEntry, except_bind_ok, except_pure_ok] at h
  obtain ⟨own, hown, others, hothers, rfl⟩ := h
  refine allPermitted_append (allPermitted_iff.mpr fun m hm => ?_)
    (allPermitted_flatten fun ms hms => ?_)
  · split at hown
    · obtain ⟨update, hupdate, rfl⟩ := (except_map_ok ..).mp hown
      rw [List.mem_singleton] at hm
      exact nestedUpdate_permitted hr (hm ▸ hupdate)
    · cases hown
      exact absurd hm List.not_mem_nil
  · obtain ⟨⟨key, value⟩, _, hkey⟩ := mem_of_mapM_ok hothers ms hms
    exact updateKey_permitted hr hkey

theorem relatedUpdates_permitted {input : RelatedInput}
    (hr : ∃ name, e.relationship? name = some input.relationship)
    (h : s.relatedUpdates e input = .ok ms) : AllPermitted s.schema e ms := by
  simp only [relatedUpdates, except_bind_ok, except_pure_ok] at h
  obtain ⟨items, _, found, hfound, rfl⟩ := h
  refine allPermitted_flatten fun ms hms => ?_
  obtain ⟨item, _, hitem⟩ := mem_of_mapM_ok hfound ms hms
  exact updateEntry_permitted hr hitem

theorem relatedArguments_permitted {args : Doc.Members}
    (h : s.relatedArguments e args path = .ok ms) : AllPermitted s.schema e ms := by
  simp only [relatedArguments, except_bind_ok, except_pure_ok] at h
  obtain ⟨found, hfound, rfl⟩ := h
  refine allPermitted_flatten fun ms hms => ?_
  obtain ⟨action, _, haction⟩ := mem_of_mapM_ok hfound ms hms
  simp only [except_bind_ok] at haction
  obtain ⟨members, _, haction⟩ := haction
  cases members with
  | none =>
    cases haction
    exact allPermitted_nil
  | some members =>
    exact byRelationship_permitted (fun _ hr _ _ => relatedChange_permitted hr) haction

theorem create_permitted {c : Create} (h : s.create e q path = .ok c) :
    ∀ n ∈ c.nodes, AllPermitted s.schema c.entity n.nested := by
  simp only [create, except_bind_ok] at h
  obtain ⟨values, _, h⟩ := h
  split at h
  · simp only [except_bind_ok, except_throw_ok, false_and, exists_false] at h
  · simp only [except_bind_ok, except_pure_ok] at h
    obtain ⟨nodes, hnodes, _, _, rfl⟩ := h
    intro n hn
    obtain ⟨⟨index, value⟩, _, hmade⟩ := mem_of_mapM_ok hnodes n hn
    simp only [except_bind_ok] at hmade
    obtain ⟨_, _, hmade⟩ := hmade
    exact (newNodeAt_permitted s _ _ _ _ hmade).2

theorem update_permitted {u : Update} (h : s.update e q path = .ok u) :
    AllPermitted s.schema u.entity u.nested := by
  simp only [update, except_bind_ok, except_pure_ok] at h
  obtain ⟨_, _, input, hinput, inside, hinside, beside, hbeside, _, _, _, _, _, _, _, _, _, _, _, _,
    rfl⟩ := h
  refine allPermitted_append (allPermitted_flatten fun ms hms => ?_)
    (relatedArguments_permitted hbeside)
  obtain ⟨related, hmem, hrelated⟩ := mem_of_mapM_ok hinside ms hms
  exact relatedUpdates_permitted ((nodeInput_ok hinput).2 related hmem) hrelated

theorem delete_permitted {d : Delete} (h : s.delete e q path = .ok d) :
    AllPermitted s.schema d.entity d.nested := by
  simp only [delete, except_bind_ok, except_pure_ok] at h
  obtain ⟨_, _, _, _, _, _, _, _, _, _, nested, hnested, rfl⟩ := h
  exact deletionsAt_permitted s _ _ _ _ hnested

end Operations

end Setup

/-- Every nested change of an operation, at every depth and through whichever argument it came, is
permitted below the node around it. -/
theorem nested_permitted (s : Setup) (r : Request) (o : Operation) (ho : s.operation r = .ok o)
    (owner : Entity) (m : Mutation) (hm : o.Changes owner m) : m.Permitted s.schema owner := by
  simp only [Setup.operation, except_bind_ok] at ho
  obtain ⟨target, _, ho⟩ := ho
  cases target with
  | entity e =>
    simp only [Setup.entityOperation] at ho
    split at ho
    · obtain ⟨l, _, rfl⟩ := (except_map_ok ..).mp ho
      exact hm.elim
    · obtain ⟨l, _, rfl⟩ := (except_map_ok ..).mp ho
      exact hm.elim
    · obtain ⟨a, _, rfl⟩ := (except_map_ok ..).mp ho
      exact hm.elim
    · obtain ⟨c, hc, rfl⟩ := (except_map_ok ..).mp ho
      obtain ⟨n, hn, hm⟩ := hm
      exact Setup.create_permitted hc n hn owner m hm
    · obtain ⟨u, hu, rfl⟩ := (except_map_ok ..).mp ho
      exact Setup.update_permitted hu owner m hm
    · obtain ⟨d, hd, rfl⟩ := (except_map_ok ..).mp ho
      exact Setup.delete_permitted hd owner m hm
  | composite c =>
    simp only [Setup.compositeOperation] at ho
    split at ho
    · obtain ⟨l, _, rfl⟩ := (except_map_ok ..).mp ho
      exact hm.elim
    · obtain ⟨l, _, rfl⟩ := (except_map_ok ..).mp ho
      exact hm.elim
    · cases ho
    · cases ho
    · cases ho
    · cases ho

/-- Emma stands below Jane, who stands below Anne. -/
theorem introduced_permitted :
    ∃ (o : Operation) (jane emma : Mutation),
      Stage.membership.operation Stage.introduced = .ok o ∧
      o.Changes Stage.newcomer emma ∧ emma ∈ jane.nested ∧
      emma.onNode.length = 1 ∧ emma.onEdge.length = 1 ∧
      emma.Permitted Stage.membership.schema Stage.newcomer := by
  obtain ⟨c, n, jane, emma, ho, hn, hjane, hemma, htarget, hnode, hedge⟩ :
      ∃ c n jane emma, Stage.membership.operation Stage.introduced = .ok (.create c) ∧
        n ∈ c.nodes ∧ jane ∈ n.nested ∧ emma ∈ jane.nested ∧
        jane.link.target = Stage.newcomer ∧ emma.onNode.length = 1 ∧ emma.onEdge.length = 1 :=
    ⟨_, _, _, _, rfl, List.mem_cons_self, List.mem_cons_self, List.mem_cons_self, rfl, rfl, rfl⟩
  have hchanges : (Operation.create c).Changes Stage.newcomer emma :=
    ⟨n, hn, .inside hjane (htarget ▸ .here hemma)⟩
  exact ⟨.create c, jane, emma, ho, hchanges, hemma, hnode, hedge,
    nested_permitted Stage.membership Stage.introduced _ ho Stage.newcomer emma hchanges⟩

end GraphSelection.Resolve
