import GraphSelection.Proofs.Restated.Lookups
import GraphSelection.Resolve.Mutation

/-!
Changes that restate one another. What is assigned is never looked at, so inputs with the same keys
are read alike; the conditions of nested changes are kindred. New nodes and deletions are read level
by level, each run to its own height.
-/
namespace GraphSelection.Resolve

open GraphSelection Plan

variable {s : Setup} {schema : Schema} {g : Doc → Doc} {d d' : Nat}

section Entries

variable {p q : Place} {v v' : Doc}

/-- A place whose items, and whose single object in their stead, stand in another place. -/
structure Place.Holds (schema : Schema) (p q : Place) : Prop where
  opens : p.opens = true
  itemOpens : q.opens = true
  items : q ∈ p.items
  under : ∀ members key, q.under schema members key = p.under schema members key

theorem holds_entries (action : String) (r : Relationship) :
    (Place.entries action r).Holds schema (.change action r) :=
  ⟨rfl, rfl, List.mem_cons_self, fun _ _ => rfl⟩

theorem holds_updates (r : Relationship) : (Place.updates r).Holds schema (.updating r) :=
  ⟨rfl, rfl, List.mem_cons_self, fun _ _ => rfl⟩

theorem holds_inputs (e : Entity) : (Place.inputs e).Holds schema (.input e) :=
  ⟨rfl, rfl, List.mem_cons_self, fun _ _ => rfl⟩

theorem Place.Holds.single (hq : p.Holds schema q) {members members' : Doc.Members}
    (h : Stands schema g d d' p (.record members) (.record members')) :
    Stands schema g d d' q (.record members) (.record members') :=
  h.recast hq.opens hq.itemOpens fun key => (hq.under members key).symm ▸ List.Subset.refl _

theorem Place.Holds.placed (hq : p.Holds schema q) (h : Stands schema g d d' q v v')
    (path : String) :
    Agree (PlacedStands schema g d d' q)
      (do let members ← asRecord v path; pure (⟨members, path⟩ : Placed) : Result Placed)
      (do let members ← asRecord v' path; pure (⟨members, path⟩ : Placed)) :=
  .bind (h.record (Place.kind_of_opens hq.itemOpens h.permits) path)
    fun _ _ hmembers => .ok ⟨path, hmembers⟩

/-- A list of objects or a single one. -/
theorem entriesOf_agree (hq : p.Holds schema q) (h : Stands schema g d d' p v v')
    (path : String) :
    Agree (List.Forall₂ (PlacedStands schema g d d' q)) (entriesOf v path)
      (entriesOf v' path) := by
  cases Doc.paired_of_kind (Place.kind_of_opens hq.opens h.permits) with
  | null => exact .ok .nil
  | list items items' =>
    refine Agree.mapM (forall₂_indexed (h.items hq.items)) fun e e' he => ?_
    obtain ⟨index, item⟩ := e
    obtain ⟨index', item'⟩ := e'
    obtain ⟨rfl, hitem⟩ := he
    exact hq.placed hitem _
  | record members members' => exact .ok (.cons ⟨path, hq.single h⟩ .nil)
  | other hother hother' =>
    cases v <;> cases hother <;> cases v' <;> cases hother' <;> exact .fault _

end Entries

section Assignments

variable {p : Place} {whole members members' : Doc.Members}

theorem assignment_agree (owner : String) (find : String → Option Attribute) (name : String)
    (v v' : Doc) :
    Agree (fun a a' => a.target = a'.target) (assignment owner find name v)
      (assignment owner find name v') := by
  unfold assignment
  split
  · split
    · exact .fault _
    · exact .ok rfl
  · exact .fault _

theorem assignments_agree (owner : String) (find : String → Option Attribute)
    (h : List.Forall₂ (EntryStands schema g d d' p whole) members members') :
    Agree AssignmentsAkin (assignments owner find members) (assignments owner find members') := by
  refine Agree.mapM h fun e e' he => ?_
  obtain ⟨name, v⟩ := e
  obtain ⟨name', v'⟩ := e'
  obtain rfl : name = name' := he.key
  exact assignment_agree owner find name v v'

theorem writtenBy_akin {written written' : List Assignment} (h : AssignmentsAkin written written') :
    writtenBy written' = writtenBy written := by
  induction h with
  | nil => rfl
  | cons ha _ ih => simp only [writtenBy, List.map_cons, ha] at ih ⊢; rw [ih]

theorem assignment_known {owner name : String} {find : String → Option Attribute} {v : Doc}
    {a : Assignment} (h : assignment owner find name v = .ok a) : find name = some a.target := by
  unfold assignment at h
  split at h
  · rename_i hfind
    split at h
    · cases h
    · cases h
      exact hfind
  · cases h

/-- An input assigns attributes of its entity. -/
theorem nodeInput_within {e : Entity} {path : String} {input : NodeInput}
    (h : nodeInput e path members = .ok input) :
    writtenBy input.assignments ⊆ e.attributes.values := by
  induction members generalizing input with
  | nil =>
    cases h
    exact List.nil_subset _
  | cons entry rest ih =>
    obtain ⟨key, v⟩ := entry
    unfold nodeInput at h
    split at h
    · simp only [except_bind_ok, except_pure_ok] at h
      obtain ⟨more, hmore, rfl⟩ := h
      have hrest : writtenBy more.assignments ⊆ e.attributes.values := ih hmore
      exact hrest
    · simp only [except_bind_ok, except_pure_ok] at h
      obtain ⟨first, hfirst, more, hmore, rfl⟩ := h
      exact List.cons_subset.mpr ⟨attribute_known (assignment_known hfirst), ih hmore⟩

variable (schema g d d') in
/-- Changes under the key of one relationship. -/
structure RelatedStands (nest : Relationship → Place) (i i' : RelatedInput) : Prop where
  relationship : i.relationship = i'.relationship
  path : i.path = i'.path
  value : Stands schema g d d' (nest i.relationship) i.value i'.value

variable (schema g d d') in
structure InputStands (nest : Relationship → Place) (n n' : NodeInput) : Prop where
  assignments : AssignmentsAkin n.assignments n'.assignments
  related : List.Forall₂ (RelatedStands schema g d d' nest) n.related n'.related

/-- Inputs of a node, taken apart. -/
theorem nodeInput_agree {e : Entity} {nest : Relationship → Place}
    (hplaces : ∀ key r, e.relationship? key = some r → nest r ∈ p.under schema whole key)
    (h : List.Forall₂ (EntryStands schema g d d' p whole) members members') (path : String) :
    Agree (InputStands schema g d d' nest) (nodeInput e path members)
      (nodeInput e path members') := by
  induction h with
  | nil => exact .ok ⟨.nil, .nil⟩
  | @cons entry entry' rest rest' hentry _ ih =>
    obtain ⟨key, v⟩ := entry
    obtain ⟨key', v'⟩ := entry'
    obtain ⟨rfl, hstands⟩ := hentry.spread
    unfold nodeInput
    cases hr : e.relationship? key with
    | some r =>
      refine .bind ih fun more more' hmore => .ok ⟨hmore.assignments, .cons ?_ hmore.related⟩
      exact ⟨rfl, rfl, hstands _ (hplaces key r hr)⟩
    | none =>
      refine .bind (assignment_agree _ _ key v v') fun first first' hfirst => ?_
      exact .bind ih fun more more' hmore => .ok ⟨.cons hfirst hmore.assignments, hmore.related⟩

end Assignments

namespace Setup

section Links

variable {r : Relationship} {args args' : Doc.Members} {p : Place}

theorem edgeAssignments_agree {members members' : Option Doc.Members}
    (h : OptionStands schema g d d' .assignments members members') :
    Agree AssignmentsAkin (s.edgeAssignments r members) (s.edgeAssignments r members') := by
  unfold edgeAssignments
  cases h with
  | none => exact .ok .nil
  | some h =>
    simp only
    split
    · exact .fault _
    · exact assignments_agree _ _ (h.succ.entries rfl)

/-- What a link leads to is known. -/
theorem link_leads {owner : Entity} {action : NestedAction} {path : String} {l : Link}
    (h : s.link owner r action path = .ok l) :
    l.relationship = r ∧ s.schema.targetOf r = .ok (.entity l.target) := by
  unfold link at h
  split at h
  · cases h
  · simp only [except_bind_ok] at h
    obtain ⟨target, htarget, h⟩ := h
    cases target with
    | entity e =>
      cases h
      exact ⟨rfl, ofSchema_ok htarget⟩
    | composite c => cases h

/-- The properties that the conditions of a nested change may speak about. -/
def linkedProperties (schema : Schema) (r : Relationship) (takesEdge : Bool) : Option PropertySet :=
  if takesEdge then schema.propertiesOf r else none

variable (hg : Substitution s g)

include hg

/-- The condition on what stands under one key. -/
theorem linkedObject_agree {v v' : Doc} {keys : Keys}
    (h : Stands s.schema g d d' (.object keys) v v') (path : String) :
    Agree (List.Forall₂ (Condition.Akin (Doc.Replaced g)))
      (do
        let members ← asRecord v path
        let found ← s.requested keys (some members) path
        return found.toList : Result (List Condition))
      (do
        let members ← asRecord v' path
        let found ← s.requested keys (some members) path
        return found.toList) := by
  refine .bind (h.record h.permits path) fun members members' hmembers => ?_
  exact .bind (asked_agree hg (.some hmembers) path) fun _ _ hfound => .ok hfound.toList

theorem linkPart_agree {l : Link}
    (hl : s.schema.targetOf l.relationship = .ok (.entity l.target)) (takesEdge : Bool)
    {whole : Doc.Members} {entry entry' : String × Doc}
    (h : EntryStands s.schema g d d' (.linked l.relationship takesEdge) whole entry entry')
    (path : String) :
    Agree (List.Forall₂ (Condition.Akin (Doc.Replaced g)))
      (s.linkPart l (linkedProperties s.schema l.relationship takesEdge) path entry)
      (s.linkPart l (linkedProperties s.schema l.relationship takesEdge) path entry') := by
  obtain ⟨key, v⟩ := entry
  obtain ⟨key', v'⟩ := entry'
  obtain ⟨rfl, hstands⟩ := h.spread
  simp only [Place.under, linkedPlaces] at hstands
  simp only [linkPart]
  split at hstands
  · simp only [hl] at hstands
    have hvalue := hstands _ List.mem_cons_self
    rw [Doc.isNull_of_kind hvalue.permits]
    split
    · exact .ok .nil
    · exact linkedObject_agree hg hvalue _
  · cases hproperties : linkedProperties s.schema l.relationship takesEdge with
    | none =>
      have hvalue : v'.kind = v.kind := by
        cases takesEdge with
        | false => exact (hstands _ List.mem_cons_self).permits
        | true =>
          simp only [show s.schema.propertiesOf l.relationship = none from hproperties] at hstands
          exact (hstands _ List.mem_cons_self).permits
      rw [Doc.isNull_of_kind hvalue]
      split
      · exact .ok .nil
      · exact .fault _
    | some properties =>
      cases takesEdge with
      | false => cases hproperties
      | true =>
        simp only [show s.schema.propertiesOf l.relationship = some properties from hproperties]
          at hstands
        have hvalue := hstands _ List.mem_cons_self
        rw [Doc.isNull_of_kind hvalue.permits]
        split
        · exact .ok .nil
        · exact linkedObject_agree hg hvalue _
  · rename_i hnode hedge
    rw [Doc.isNull_of_kind (hstands _ List.mem_cons_self).permits]
    split
    · exact .ok .nil
    · split
      · exact absurd rfl hnode
      · exact absurd rfl hedge
      · exact absurd rfl hedge
      · exact .fault _

/-- The condition of a nested change. -/
theorem linkFilter_agree {l : Link}
    (hl : s.schema.targetOf l.relationship = .ok (.entity l.target)) (takesEdge : Bool)
    {item item' : Placed} (h : PlacedStands s.schema g d d' p item item') (hopens : p.opens = true)
    (hp : .linked l.relationship takesEdge ∈ p.under s.schema item.members "where")
    (action : Action) :
    Agree FilterAkin
      (s.linkFilter l (linkedProperties s.schema l.relationship takesEdge) item action)
      (s.linkFilter l (linkedProperties s.schema l.relationship takesEdge) item' action) := by
  obtain ⟨path, hmembers⟩ := h
  refine .bind (recordArg_agree hmembers hopens hp rfl path)
    fun found found' hfound => ?_
  have hentries : List.Forall₂ (EntryStands s.schema g d d' (.linked l.relationship takesEdge)
      (found.getD [])) (found.getD []) (found'.getD []) := by
    cases hfound with
    | none => exact .nil
    | some hfound => exact hfound.succ.entries rfl
  refine .bind (.mapM hentries fun _ _ he => linkPart_agree hg hl takesEdge he _)
    fun parts parts' hparts => ?_
  refine joined_agree hg (target_known hl) (List.nil_subset _) action fun rules hrules => .ok ?_
  exact ⟨_, hg.faithful, Condition.allOf_akin (List.rel_append (List.rel_flatten hparts) hrules)⟩

end Links

section Nested

variable {owner : Entity} {r : Relationship} {item item' : Placed}

variable (schema g) in
/-- Makers of new nodes that agree on inputs of the entities of a schema. -/
def MakersAgree (d d' : Nat) (make make' : NodeMaker) : Prop :=
  ∀ e ∈ schema.entities.values, ∀ item item', PlacedStands schema g d d' (.input e) item item' →
    Agree (NewNode.Akin Mutation.Akin) (make e item) (make' e item')

variable (schema g) in
/-- Readers of deletions that agree on the relationships of the entities of a schema. -/
def DeletionsAgree (d d' : Nat) (deletions deletions' : DeletionReader) : Prop :=
  ∀ e ∈ schema.entities.values, ∀ item item',
    PlacedStands schema g d d' (.byRelationship "delete" e) item item' →
      Agree (List.Forall₂ Mutation.Akin) (deletions e item) (deletions' e item')

/-- An optional object of a change; without one there is an empty object. -/
theorem OptionStands.getD {q : Place} {members members' : Option Doc.Members}
    (h : OptionStands schema g d d' q members members')
    (hopens : q.opens = true) :
    Stands schema g d d' q (.record (members.getD [])) (.record (members'.getD [])) := by
  cases h with
  | none => exact stands_of_members hopens .nil (Nat.zero_le _) (Nat.zero_le _)
  | some h => exact h

theorem nestedCreate_agree {make make' : NodeMaker} (hmake : MakersAgree s.schema g d d' make make')
    (h : PlacedStands s.schema g d d' (.change "create" r) item item') :
    Agree Mutation.Akin (s.nestedCreate make owner r item)
      (s.nestedCreate make' owner r item') := by
  obtain ⟨path, hmembers⟩ := h
  refine .given _ fun l hl => ?_
  obtain ⟨rfl, hleads⟩ := link_leads hl
  have hnode : ∀ whole, Place.input l.target ∈
      (Place.change "create" l.relationship).under s.schema whole "node" := by
    simp [Place.under, changePlaces, hleads]
  refine .bind (recordArg_agree hmembers rfl (hnode _) rfl path)
    fun members members' hinput => ?_
  refine .bind (hmake _ (target_known hleads) _ _ ⟨_, OptionStands.getD hinput rfl⟩)
    fun node node' hnode => .skip _ fun linked => ?_
  refine .bind (recordArg_agree hmembers rfl (q := .assignments) List.mem_cons_self rfl path)
    fun edge edge' hedge => ?_
  refine .bind (edgeAssignments_agree hedge) fun _ _ hassignments => .ok ?_
  cases hnode with
  | intro validations hown hnested =>
    exact .create _ (.intro _ hown hnested) hassignments

variable (hg : Substitution s g)

include hg

theorem nestedConnect_agree (h : PlacedStands s.schema g d d' (.change "connect" r) item item') :
    Agree Mutation.Akin (s.nestedConnect owner r item) (s.nestedConnect owner r item') := by
  have hplaced := h
  obtain ⟨path, hmembers⟩ := h
  refine .given _ fun l hl => ?_
  obtain ⟨rfl, hleads⟩ := link_leads hl
  refine .bind (linkFilter_agree hg hleads false hplaced rfl List.mem_cons_self _)
    fun filter filter' hfilter => .skip _ fun validations => ?_
  refine .bind (recordArg_agree hmembers rfl (q := .assignments) List.mem_cons_self rfl path)
    fun edge edge' hedge => ?_
  exact .bind (edgeAssignments_agree hedge)
    fun _ _ hassignments => .ok (.connect _ _ hfilter hassignments)

theorem nestedDisconnect_agree
    (h : PlacedStands s.schema g d d' (.change "disconnect" r) item item') :
    Agree Mutation.Akin (s.nestedDisconnect owner r item) (s.nestedDisconnect owner r item') := by
  have hplaced := h
  obtain ⟨path, hmembers⟩ := h
  refine .given _ fun l hl => ?_
  obtain ⟨rfl, hleads⟩ := link_leads hl
  refine .bind (linkFilter_agree hg hleads true hplaced rfl List.mem_cons_self _)
    fun filter filter' hfilter => .skip _ fun validations => ?_
  exact .ok (.disconnect _ _ hfilter)

theorem nestedDelete_agree {deletions deletions' : DeletionReader}
    (hdeletions : DeletionsAgree s.schema g d d' deletions deletions')
    (h : PlacedStands s.schema g d d' (.change "delete" r) item item') :
    Agree Mutation.Akin (s.nestedDelete deletions owner r item)
      (s.nestedDelete deletions' owner r item') := by
  have hplaced := h
  obtain ⟨path, hmembers⟩ := h
  refine .given _ fun l hl => ?_
  obtain ⟨rfl, hleads⟩ := link_leads hl
  refine .bind (linkFilter_agree hg hleads true hplaced rfl List.mem_cons_self _)
    fun filter filter' hfilter => .skip _ fun before => ?_
  have hdelete : ∀ whole, Place.byRelationship "delete" l.target ∈
      (Place.change "delete" l.relationship).under s.schema whole "delete" := by
    simp [Place.under, changePlaces, hleads]
  refine .bind (S := Mutation.Akin) (R := List.Forall₂ Mutation.Akin) ?_
    fun nested nested' hnested => .ok (.delete _ _ hfilter hnested)
  refine .bind (recordArg_agree hmembers rfl (hdelete _) rfl path)
    fun found found' hfound => ?_
  cases hfound with
  | none => exact .ok .nil
  | some hfound => exact hdeletions _ (target_known hleads) _ _ ⟨_, hfound⟩

/-- A nested update, under its condition. -/
theorem nestedUpdate_agree (h : PlacedStands s.schema g d d' (.updating r) item item') :
    Agree Mutation.Akin (s.nestedUpdate owner r item) (s.nestedUpdate owner r item') := by
  have hplaced := h
  obtain ⟨path, hmembers⟩ := h
  refine .given _ fun l hl => ?_
  obtain ⟨rfl, hleads⟩ := link_leads hl
  refine .bind (linkFilter_agree hg hleads true hplaced rfl List.mem_cons_self _)
    fun filter filter' hfilter => ?_
  refine .bind (recordArg_agree hmembers rfl (q := .updated) List.mem_cons_self rfl path)
    fun update update' hupdate => ?_
  have hparts := OptionStands.getD hupdate rfl
  refine .bind (recordArg_agree hparts rfl (q := .assignments) List.mem_cons_self rfl _)
    fun members members' hnode => ?_
  refine .bind (assignments_agree _ _ ((OptionStands.getD hnode rfl).succ.entries rfl))
    fun node node' hnode => ?_
  refine .bind (recordArg_agree hparts rfl (q := .assignments) List.mem_cons_self rfl _)
    fun members members' hedge => ?_
  refine .bind (edgeAssignments_agree hedge) fun edge edge' hedge => ?_
  rw [writtenBy_akin hnode]
  exact .skip _ fun before => .skip _ fun after => .ok (.update _ _ _ hfilter hnode hedge)

end Nested

section Makers

variable {e owner : Entity} {r : Relationship} {make make' : NodeMaker}

theorem checkedNode_agree {written written' : List Assignment} {nested nested' : List Mutation}
    (hwritten : AssignmentsAkin written written')
    (hnested : List.Forall₂ Mutation.Akin nested nested') :
    Agree (NewNode.Akin Mutation.Akin) (s.checkedNode e written nested)
      (s.checkedNode e written' nested') := by
  unfold checkedNode
  rw [writtenBy_akin hwritten]
  exact .skip _ fun validations => .ok (.intro _ hwritten hnested)

variable (hg : Substitution s g)

include hg

theorem newNodeChanges_agree (hmake : MakersAgree s.schema g d d' make make')
    {input input' : RelatedInput} (h : RelatedStands s.schema g d d' .changes input input') :
    Agree (List.Forall₂ Mutation.Akin) (s.newNodeChanges make owner input)
      (s.newNodeChanges make' owner input') := by
  obtain ⟨r, v, path⟩ := input
  obtain ⟨r', v', path'⟩ := input'
  obtain ⟨rfl, rfl, hvalue⟩ := h
  refine .bind (hvalue.record hvalue.permits path) fun actions actions' hactions => .flatten ?_
  refine Agree.mapM (hactions.succ.entries rfl) fun entry entry' hentry => ?_
  obtain ⟨action, value⟩ := entry
  obtain ⟨action', value'⟩ := entry'
  obtain ⟨rfl, hstands⟩ := hentry.spread
  refine .bind (entriesOf_agree (holds_entries _ r) (hstands _ List.mem_cons_self) _)
    fun items items' hitems => Agree.mapM hitems fun item item' hitem => ?_
  unfold newNodeChange
  split
  · exact nestedCreate_agree hmake hitem
  · exact nestedConnect_agree hg hitem
  · exact .fault _

omit hg in
theorem newNodeAt_empty (depth : Nat) (path : String) :
    s.newNodeAt depth e ⟨[], path⟩ = s.checkedNode e [] [] := by
  cases depth <;> rfl

/-- New nodes are made alike, each run to its own height. -/
theorem newNodeAt_agree (d d' : Nat) :
    MakersAgree s.schema g d d' (s.newNodeAt d) (s.newNodeAt d') := by
  induction d, d' using heights_induction with
  | empty d d' hzero =>
    rintro e he _ _ ⟨path, hmembers⟩
    obtain ⟨rfl, rfl⟩ := hmembers.empty rfl hzero
    rw [newNodeAt_empty, newNodeAt_empty]
    exact checkedNode_agree .nil .nil
  | level d d' ih =>
    rintro e he _ _ ⟨path, hmembers⟩
    have hplaces : ∀ whole key r, e.relationship? key = some r →
        Place.changes r ∈ (Place.input e).under s.schema whole key := by
      intro whole key r hr
      simp [Place.under, inputPlaces, hr]
    refine .bind (nodeInput_agree (hplaces _) (hmembers.entries rfl) path)
      fun input input' hinput => ?_
    refine .bind (Agree.mapM hinput.related fun _ _ hrelated =>
      newNodeChanges_agree hg ih hrelated) fun nested nested' hnested => ?_
    exact checkedNode_agree hinput.assignments (List.rel_flatten hnested)

theorem newNode_agree {e : Entity} (he : e ∈ s.schema.entities.values) {item item' : Placed}
    (h : PlacedStands s.schema g d d' (.input e) item item') :
    Agree (NewNode.Akin Mutation.Akin) (s.newNode e item) (s.newNode e item') := by
  obtain ⟨path, hmembers⟩ := h
  exact newNodeAt_agree hg _ _ e he _ _ ⟨path, hmembers.restated, Nat.le_refl _, Nat.le_refl _⟩

end Makers

section Deletions

variable {e : Entity} {action : String} {item item' : Placed}

/-- Entries by relationship, each read alike. -/
theorem byRelationship_agree {read read' : Relationship → Placed → Result Mutation}
    (h : PlacedStands schema g (d + 1) (d' + 1) (.byRelationship action e) item item')
    (hread : ∀ r item item', PlacedStands schema g d d' (.change action r) item item' →
      Agree Mutation.Akin (read r item) (read' r item')) :
    Agree (List.Forall₂ Mutation.Akin) (byRelationship e item read)
      (byRelationship e item' read') := by
  obtain ⟨path, hmembers⟩ := h
  refine .flatten (Agree.mapM (hmembers.entries rfl) fun entry entry' hentry => ?_)
  obtain ⟨name, value⟩ := entry
  obtain ⟨name', value'⟩ := entry'
  obtain ⟨rfl, hstands⟩ := hentry.spread
  simp only [Place.under] at hstands
  simp only
  cases hr : e.relationship? name with
  | none => exact .fault _
  | some r =>
    simp only [hr] at hstands
    exact .bind (entriesOf_agree (holds_entries action r) (hstands _ List.mem_cons_self) _)
      fun _ _ hitems => Agree.mapM hitems fun _ _ hitem => hread r _ _ hitem

theorem deletionsAt_empty (depth : Nat) (path : String) :
    s.deletionsAt depth e ⟨[], path⟩ = .ok [] := by
  cases depth <;> rfl

variable (hg : Substitution s g)

include hg

/-- Deletions are read alike, each to its own height. -/
theorem deletionsAt_agree (d d' : Nat) :
    DeletionsAgree s.schema g d d' (s.deletionsAt d) (s.deletionsAt d') := by
  induction d, d' using heights_induction with
  | empty d d' hzero =>
    rintro e he _ _ ⟨path, hmembers⟩
    obtain ⟨rfl, rfl⟩ := hmembers.empty rfl hzero
    rw [deletionsAt_empty, deletionsAt_empty]
    exact .ok .nil
  | level d d' ih =>
    rintro e he _ _ ⟨path, hmembers⟩
    exact byRelationship_agree ⟨path, hmembers⟩ fun r _ _ hitem => nestedDelete_agree hg ih hitem

theorem deletions_agree {e : Entity} (he : e ∈ s.schema.entities.values)
    (h : PlacedStands s.schema g d d' (.byRelationship "delete" e) item item') :
    Agree (List.Forall₂ Mutation.Akin) (s.deletions e item) (s.deletions e item') := by
  obtain ⟨path, hmembers⟩ := h
  exact deletionsAt_agree hg _ _ e he _ _ ⟨path, hmembers.restated, Nat.le_refl _, Nat.le_refl _⟩

end Deletions

end Setup

end GraphSelection.Resolve
