import GraphSelection.Proofs.Resolved.Fields
import GraphSelection.Resolve.Operation

/-!
Changes that are resolved from a request, and with them whole operations. Every change is guarded
by the rules for its own action on the entity it changes, however deep it is nested.
-/
namespace GraphSelection.Resolve

open GraphSelection Plan

namespace Setup

/-- A change of what a relationship leads to, without the changes inside it. The filter of an
update asks only for the rules of the entity; the attributes it writes are validated. -/
def GuardsChange (s : Setup) : Mutation → Prop
  | .create link n _ =>
      link.target ∈ s.schema.entities.values ∧ ∃ own linked,
        guardValidations s link.target (writtenBy n.assignments) .create .after = .ok own ∧
        guardValidations s link.target [] .createRelationship .after = .ok linked ∧
        n.validations = own ++ linked
  | .connect link filter _ validations =>
      link.target ∈ s.schema.entities.values ∧
        Narrowed s link.target [] .createRelationship false filter ∧
        guardValidations s link.target [] .createRelationship .after = .ok validations
  | .disconnect link filter validations =>
      link.target ∈ s.schema.entities.values ∧
        Narrowed s link.target [] .deleteRelationship true filter ∧
        guardValidations s link.target [] .deleteRelationship .before = .ok validations
  | .update link filter before node _ after =>
      link.target ∈ s.schema.entities.values ∧
        Narrowed s link.target [] .update true filter ∧
        guardValidations s link.target (writtenBy node) .update .before = .ok before ∧
        guardValidations s link.target (writtenBy node) .update .after = .ok after
  | .delete link filter before _ =>
      link.target ∈ s.schema.entities.values ∧
        Narrowed s link.target [] .delete true filter ∧
        guardValidations s link.target [] .delete .before = .ok before

/-- The rules of the schema guard a part of a plan by itself. -/
def Guards (s : Setup) : Part → Prop
  | .field f => s.GuardsSelected (.field f)
  | .lookup l => s.GuardsSelected (.lookup l)
  | .aggregate a => s.GuardsSelected (.aggregate a)
  | .newNode e n =>
      e ∈ s.schema.entities.values ∧
        guardValidations s e (writtenBy n.assignments) .create .after = .ok n.validations
  | .change m => s.GuardsChange m
  | .update u =>
      u.entity ∈ s.schema.entities.values ∧
        Narrowed s u.entity (writtenBy u.assignments) .update false u.filter ∧
        guardValidations s u.entity (writtenBy u.assignments) .update .before = .ok u.before ∧
        guardValidations s u.entity (writtenBy u.assignments) .update .after = .ok u.after
  | .delete d =>
      d.entity ∈ s.schema.entities.values ∧
        Narrowed s d.entity [] .delete false d.filter ∧
        guardValidations s d.entity [] .delete .before = .ok d.before

theorem guards_of_selected {s : Setup} {p : Part} (h : s.GuardsSelected p) : s.Guards p := by
  cases p with
  | field f => exact h
  | lookup l => exact h
  | aggregate a => exact h
  | newNode e n => exact h.elim
  | change m => exact h.elim
  | update u => exact h.elim
  | delete d => exact h.elim

theorem guardsChange_fits {s : Setup} {m : Mutation} (h : s.GuardsChange m) :
    m.Fits (Computes s.schema) := by
  cases m with
  | create link n edge =>
    obtain ⟨hknown, own, linked, hown, hlinked, hall⟩ := h
    intro c hc
    rw [hall] at hc
    rcases List.mem_append.mp hc with hc | hc
    · exact guardValidations_fits hknown hown c hc
    · exact guardValidations_fits hknown hlinked c hc
  | connect link filter edge validations =>
    obtain ⟨hknown, hfilter, hvalidations⟩ := h
    exact ⟨hfilter.fits, guardValidations_fits hknown hvalidations⟩
  | disconnect link filter validations =>
    obtain ⟨hknown, hfilter, hvalidations⟩ := h
    exact ⟨hfilter.fits, guardValidations_fits hknown hvalidations⟩
  | update link filter before node edge after =>
    obtain ⟨hknown, hfilter, hbefore, hafter⟩ := h
    exact ⟨hfilter.fits, guardValidations_fits hknown hbefore, guardValidations_fits hknown hafter⟩
  | delete link filter before nested =>
    obtain ⟨hknown, hfilter, hbefore⟩ := h
    exact ⟨hfilter.fits, guardValidations_fits hknown hbefore⟩

/-- A part that is guarded speaks only of what is known at its place. -/
theorem guards_fits {s : Setup} {p : Part} (h : s.Guards p) : p.Fits (Computes s.schema) := by
  cases p with
  | field f => exact guardsSelected_fits h
  | lookup l => exact guardsSelected_fits h
  | aggregate a => exact guardsSelected_fits h
  | newNode e n => exact guardValidations_fits h.1 h.2
  | change m => exact guardsChange_fits h
  | update u =>
    obtain ⟨hknown, hfilter, hbefore, hafter⟩ := h
    exact ⟨hfilter.fits, guardValidations_fits hknown hbefore, guardValidations_fits hknown hafter⟩
  | delete d =>
    obtain ⟨hknown, hfilter, hbefore⟩ := h
    exact ⟨hfilter.fits, guardValidations_fits hknown hbefore⟩

section Nested

variable {s : Setup} {owner : Entity} {r : Relationship} {item : Placed} {m : Mutation}

theorem link_known {action : NestedAction} {path : String} {l : Link}
    (h : s.link owner r action path = .ok l) : l.target ∈ s.schema.entities.values := by
  unfold link at h
  split at h
  · simp only [except_bind_ok, except_throw_ok, false_and, exists_false] at h
  · simp only [except_bind_ok] at h
    obtain ⟨target, htarget, h⟩ := h
    cases target with
    | entity target =>
      simp only [except_pure_ok] at h
      subst h
      exact target_known (ofSchema_ok htarget)
    | composite c => simp only [except_throw_ok] at h

theorem linkPart_fits {l : Link} (hl : l.target ∈ s.schema.entities.values)
    {properties : Option PropertySet} {path : String} {entry : String × Doc}
    {cs : List Condition} (h : s.linkPart l properties path entry = .ok cs) :
    ∀ c ∈ cs, c.Fits (Computes s.schema) properties.isSome := by
  obtain ⟨key, value⟩ := entry
  unfold linkPart at h
  simp only at h
  split at h
  · simp only [except_pure_ok] at h
    subst h
    simp
  · simp only [except_bind_ok, except_pure_ok] at h
    obtain ⟨keys, hkeys, members, _, found, hfound, rfl⟩ := h
    have hnode : (Keys.node l.target).Known s.schema := hl
    intro c hc
    rw [Option.mem_toList] at hc
    split at hkeys
    · cases hkeys
      exact (requested_fits hnode hfound c hc).mono (fun _ h => h) (by simp [Keys.atEdge])
    · cases hkeys
      have hedge : ∀ properties, (Keys.edge properties).Known s.schema := fun _ => trivial
      exact requested_fits (hedge _) hfound c hc
    · cases hkeys
    · cases hkeys

/-- What is asked of the edge can be asked only where the relationship is there already. -/
theorem linkFilter_ok {l : Link} (hl : l.target ∈ s.schema.entities.values)
    {properties : Option PropertySet} {action : Action} {filter : Option Condition} {edges : Bool}
    (hedges : properties.isSome = true → edges = true)
    (h : s.linkFilter l properties item action = .ok filter) :
    Narrowed s l.target [] action edges filter := by
  simp only [linkFilter, except_bind_ok, except_pure_ok] at h
  obtain ⟨members, _, parts, hparts, rules, hrules, rfl⟩ := h
  refine narrowed_allOf hl hrules ?_
  intro c hc
  obtain ⟨part, hpart, hc⟩ := List.mem_flatten.mp hc
  obtain ⟨entry, _, hentry⟩ := mem_of_mapM_ok hparts part hpart
  exact (linkPart_fits hl hentry c hc).mono (fun _ h => h) hedges

/-- A maker of new nodes that are guarded at every depth. -/
def MakesGuarded (s : Setup) (make : NodeMaker) : Prop :=
  ∀ e item n, e ∈ s.schema.entities.values → make e item = .ok n →
    ∀ p ∈ newNodeParts e n, s.Guards p

/-- A reader of changes that are guarded at every depth. -/
def ReadsGuarded (s : Setup) (deletions : DeletionReader) : Prop :=
  ∀ e item ms, deletions e item = .ok ms → ∀ p ∈ Mutation.partsOf ms, s.Guards p

theorem nestedCreate_ok {make : NodeMaker} (hmake : s.MakesGuarded make)
    (h : s.nestedCreate make owner r item = .ok m) : ∀ p ∈ m.parts, s.Guards p := by
  simp only [nestedCreate, except_bind_ok, except_pure_ok] at h
  obtain ⟨l, hl, members, _, n, hn, linked, hlinked, _, _, edge, _, rfl⟩ := h
  have hknown := link_known hl
  have hparts := hmake _ _ _ hknown hn
  have hown : s.Guards (.newNode l.target n) := hparts _ List.mem_cons_self
  intro p hp
  rcases List.mem_cons.mp hp with rfl | hp
  · exact ⟨hknown, n.validations, linked, hown.2, hlinked, rfl⟩
  · exact hparts p (List.mem_cons_of_mem _ hp)

theorem nestedConnect_ok (h : s.nestedConnect owner r item = .ok m) :
    ∀ p ∈ m.parts, s.Guards p := by
  simp only [nestedConnect, except_bind_ok, except_pure_ok] at h
  obtain ⟨l, hl, filter, hfilter, validations, hvalidations, _, _, edge, _, rfl⟩ := h
  have hknown := link_known hl
  intro p hp
  rw [Mutation.parts, List.mem_singleton] at hp
  exact hp ▸ ⟨hknown, linkFilter_ok hknown (by simp) hfilter, hvalidations⟩

theorem nestedDisconnect_ok (h : s.nestedDisconnect owner r item = .ok m) :
    ∀ p ∈ m.parts, s.Guards p := by
  simp only [nestedDisconnect, except_bind_ok, except_pure_ok] at h
  obtain ⟨l, hl, filter, hfilter, validations, hvalidations, rfl⟩ := h
  have hknown := link_known hl
  intro p hp
  rw [Mutation.parts, List.mem_singleton] at hp
  exact hp ▸ ⟨hknown, linkFilter_ok hknown (by simp) hfilter, hvalidations⟩

theorem nestedUpdate_ok (h : s.nestedUpdate owner r item = .ok m) :
    ∀ p ∈ m.parts, s.Guards p := by
  simp only [nestedUpdate, except_bind_ok, except_pure_ok] at h
  obtain ⟨l, hl, filter, hfilter, _, _, _, _, node, _, _, _, edge, _, before, hbefore, after,
    hafter, rfl⟩ := h
  have hknown := link_known hl
  intro p hp
  rw [Mutation.parts, List.mem_singleton] at hp
  exact hp ▸ ⟨hknown, linkFilter_ok hknown (by simp) hfilter, hbefore, hafter⟩

theorem nestedDelete_ok {deletions : DeletionReader} (hdeletions : s.ReadsGuarded deletions)
    (h : s.nestedDelete deletions owner r item = .ok m) : ∀ p ∈ m.parts, s.Guards p := by
  simp only [nestedDelete, except_bind_ok, except_pure_ok] at h
  obtain ⟨l, hl, filter, hfilter, before, hbefore, nested, ⟨members, _, hnested⟩, rfl⟩ := h
  have hknown := link_known hl
  intro p hp
  rcases List.mem_cons.mp hp with rfl | hp
  · exact ⟨hknown, linkFilter_ok hknown (by simp) hfilter, hbefore⟩
  · cases members with
    | none =>
      simp only [except_pure_ok] at hnested
      subst hnested
      simp [Mutation.partsOf] at hp
    | some members => exact hdeletions _ _ _ hnested p hp

/-- Changes that are gathered from lists of changes. -/
theorem guards_flatten {groups : List (List Mutation)}
    (h : ∀ ms ∈ groups, ∀ m ∈ ms, ∀ p ∈ m.parts, s.Guards p) :
    ∀ p ∈ Mutation.partsOf groups.flatten, s.Guards p := by
  intro p hp
  obtain ⟨m, hm, hp⟩ := Mutation.mem_partsOf.mp hp
  obtain ⟨ms, hms, hm⟩ := List.mem_flatten.mp hm
  exact h ms hms m hm p hp

theorem newNodeChange_ok {make : NodeMaker} (hmake : s.MakesGuarded make) {action path : String}
    (h : s.newNodeChange make owner r action path item = .ok m) : ∀ p ∈ m.parts, s.Guards p := by
  unfold newNodeChange at h
  split at h
  · exact nestedCreate_ok hmake h
  · exact nestedConnect_ok h
  · cases h

theorem newNodeChanges_ok {make : NodeMaker} (hmake : s.MakesGuarded make) {input : RelatedInput}
    {ms : List Mutation} (h : s.newNodeChanges make owner input = .ok ms) :
    ∀ p ∈ Mutation.partsOf ms, s.Guards p := by
  simp only [newNodeChanges, except_bind_ok, except_pure_ok] at h
  obtain ⟨actions, _, found, hfound, rfl⟩ := h
  refine guards_flatten ?_
  intro ms hms m hm
  obtain ⟨⟨action, value⟩, _, hentry⟩ := mem_of_mapM_ok hfound ms hms
  simp only [except_bind_ok] at hentry
  obtain ⟨items, _, hitems⟩ := hentry
  obtain ⟨item, _, hitem⟩ := mem_of_mapM_ok hitems m hm
  exact newNodeChange_ok hmake hitem

theorem checkedNode_ok {e : Entity} (he : e ∈ s.schema.entities.values)
    {assignments : List Assignment} {nested : List Mutation} {n : NewNode Mutation}
    (hnested : ∀ p ∈ Mutation.partsOf nested, s.Guards p)
    (h : s.checkedNode e assignments nested = .ok n) : ∀ p ∈ newNodeParts e n, s.Guards p := by
  simp only [checkedNode, except_bind_ok, except_pure_ok] at h
  obtain ⟨validations, hvalidations, rfl⟩ := h
  intro p hp
  rcases List.mem_cons.mp hp with rfl | hp
  · exact ⟨he, hvalidations⟩
  · exact hnested p hp

theorem newNodeAt_guards (s : Setup) (depth : Nat) : s.MakesGuarded (s.newNodeAt depth) := by
  induction depth with
  | zero =>
    intro e item n he h
    exact checkedNode_ok he (by simp [Mutation.partsOf]) h
  | succ depth ih =>
    intro e item n he h
    simp only [newNodeAt, except_bind_ok] at h
    obtain ⟨input, _, nested, hnested, h⟩ := h
    refine checkedNode_ok he (guards_flatten ?_) h
    intro ms hms m hm p hp
    obtain ⟨related, _, hrelated⟩ := mem_of_mapM_ok hnested ms hms
    exact newNodeChanges_ok ih hrelated p (Mutation.mem_partsOf.mpr ⟨m, hm, hp⟩)

theorem byRelationship_ok {e : Entity} {read : Relationship → Placed → Result Mutation}
    (hread : ∀ r item m, read r item = .ok m → ∀ p ∈ m.parts, s.Guards p) {ms : List Mutation}
    (h : byRelationship e item read = .ok ms) : ∀ p ∈ Mutation.partsOf ms, s.Guards p := by
  simp only [byRelationship, except_bind_ok, except_pure_ok] at h
  obtain ⟨found, hfound, rfl⟩ := h
  refine guards_flatten ?_
  intro ms hms m hm
  obtain ⟨⟨name, value⟩, _, hentry⟩ := mem_of_mapM_ok hfound ms hms
  simp only at hentry
  split at hentry
  · simp only [except_throw_ok] at hentry
  · simp only [except_bind_ok] at hentry
    obtain ⟨items, _, hitems⟩ := hentry
    obtain ⟨item, _, hitem⟩ := mem_of_mapM_ok hitems m hm
    exact hread _ _ m hitem

theorem deletionsAt_guards (s : Setup) (depth : Nat) : s.ReadsGuarded (s.deletionsAt depth) := by
  induction depth with
  | zero =>
    intro e item ms h
    cases h
    simp [Mutation.partsOf]
  | succ depth ih =>
    intro e item ms h
    exact byRelationship_ok (fun _ _ _ hm => nestedDelete_ok ih hm) h

theorem newNode_guards (s : Setup) : s.MakesGuarded s.newNode :=
  fun e item => newNodeAt_guards s _ e item

theorem deletions_guards (s : Setup) : s.ReadsGuarded s.deletions :=
  fun e item => deletionsAt_guards s _ e item

end Nested

section Operations

variable {s : Setup} {e : Entity} {q : Asked} {path : String}

/-- What a change gives back is guarded like any other selection. -/
theorem returnedFields_ok (he : e ∈ s.schema.entities.values) {fields : List Field}
    (h : s.returnedFields e q path = .ok fields) :
    ∀ p ∈ Field.partsOf fields, s.Guards p :=
  fun p hp => guards_of_selected (reads_fieldsAt s _ e _ _ _ he h p hp)

theorem create_ok (he : e ∈ s.schema.entities.values) {c : Create}
    (h : s.create e q path = .ok c) : ∀ p ∈ (Operation.create c).parts, s.Guards p := by
  simp only [create, except_bind_ok] at h
  obtain ⟨values, _, h⟩ := h
  split at h
  · simp only [except_bind_ok, except_throw_ok, false_and, exists_false] at h
  · simp only [except_bind_ok, except_pure_ok] at h
    obtain ⟨nodes, hnodes, fields, hfields, rfl⟩ := h
    intro p hp
    rcases List.mem_append.mp hp with hp | hp
    · obtain ⟨n, hn, hp⟩ := List.mem_flatMap.mp hp
      obtain ⟨⟨index, value⟩, _, hmade⟩ := mem_of_mapM_ok hnodes n hn
      simp only [except_bind_ok] at hmade
      obtain ⟨members, _, hmade⟩ := hmade
      exact newNode_guards s e _ n he hmade p hp
    · exact returnedFields_ok he hfields p hp

/-- A creation without an input is refused. -/
theorem create_nodes {c : Create} (h : s.create e q path = .ok c) : c.nodes ≠ [] := by
  simp only [create, except_bind_ok] at h
  obtain ⟨values, _, h⟩ := h
  split at h
  · simp only [except_bind_ok, except_throw_ok, false_and, exists_false] at h
  · rename_i hvalues
    simp only [except_bind_ok, except_pure_ok] at h
    obtain ⟨nodes, hnodes, fields, _, rfl⟩ := h
    intro hnil
    simp only at hnil
    have hlength := length_of_mapM_ok hnodes
    rw [hnil] at hlength
    cases values with
    | nil => exact hvalues rfl
    | cons value rest => simp [indexed] at hlength

theorem relatedChange_ok {action : String} {r : Relationship} {item : Placed} {m : Mutation}
    (h : s.relatedChange e action r item = .ok m) : ∀ p ∈ m.parts, s.Guards p := by
  unfold relatedChange at h
  split at h
  · exact nestedCreate_ok (newNode_guards s) h
  · exact nestedConnect_ok h
  · exact nestedDisconnect_ok h
  · exact nestedDelete_ok (deletions_guards s) h

theorem updateKey_ok {r : Relationship} {key : String} {value : Doc} {ms : List Mutation}
    (h : s.updateKey e r path key value = .ok ms) : ∀ m ∈ ms, ∀ p ∈ m.parts, s.Guards p := by
  unfold updateKey at h
  simp only at h
  split at h
  · simp only [except_pure_ok] at h
    subst h
    simp
  · split at h
    · simp only [except_bind_ok] at h
      obtain ⟨items, _, hitems⟩ := h
      intro m hm
      obtain ⟨item, _, hitem⟩ := mem_of_mapM_ok hitems m hm
      exact relatedChange_ok hitem
    · simp only [except_throw_ok] at h

theorem updateEntry_ok {r : Relationship} {item : Placed} {ms : List Mutation}
    (h : s.updateEntry e r item = .ok ms) : ∀ m ∈ ms, ∀ p ∈ m.parts, s.Guards p := by
  simp only [updateEntry, except_bind_ok, except_pure_ok] at h
  obtain ⟨own, hown, others, hothers, rfl⟩ := h
  intro m hm
  rcases List.mem_append.mp hm with hm | hm
  · split at hown
    · obtain ⟨update, hupdate, rfl⟩ := (except_map_ok ..).mp hown
      rw [List.mem_singleton] at hm
      exact nestedUpdate_ok (hm ▸ hupdate)
    · cases hown
      simp at hm
  · obtain ⟨ms, hms, hm⟩ := List.mem_flatten.mp hm
    obtain ⟨⟨key, value⟩, _, hkey⟩ := mem_of_mapM_ok hothers ms hms
    exact updateKey_ok hkey m hm

theorem relatedUpdates_ok {input : RelatedInput} {ms : List Mutation}
    (h : s.relatedUpdates e input = .ok ms) : ∀ p ∈ Mutation.partsOf ms, s.Guards p := by
  simp only [relatedUpdates, except_bind_ok, except_pure_ok] at h
  obtain ⟨items, _, found, hfound, rfl⟩ := h
  refine guards_flatten ?_
  intro ms hms
  obtain ⟨item, _, hitem⟩ := mem_of_mapM_ok hfound ms hms
  exact updateEntry_ok hitem

theorem relatedArguments_ok {args : Doc.Members} {ms : List Mutation}
    (h : s.relatedArguments e args path = .ok ms) : ∀ p ∈ Mutation.partsOf ms, s.Guards p := by
  simp only [relatedArguments, except_bind_ok, except_pure_ok] at h
  obtain ⟨found, hfound, rfl⟩ := h
  refine guards_flatten ?_
  intro ms hms m hm p hp
  obtain ⟨action, _, haction⟩ := mem_of_mapM_ok hfound ms hms
  simp only [except_bind_ok] at haction
  obtain ⟨members, _, haction⟩ := haction
  cases members with
  | none =>
    simp only [except_pure_ok] at haction
    subst haction
    simp at hm
  | some members =>
    exact byRelationship_ok (fun _ _ _ hm => relatedChange_ok hm) haction p
      (Mutation.mem_partsOf.mpr ⟨m, hm, hp⟩)

theorem update_ok (he : e ∈ s.schema.entities.values) {u : Update}
    (h : s.update e q path = .ok u) : ∀ p ∈ (Operation.update u).parts, s.Guards p := by
  simp only [update, except_bind_ok, except_pure_ok] at h
  obtain ⟨_, _, input, _, inside, hinside, beside, hbeside, members, _, asked, hasked, rules,
    hrules, before, hbefore, after, hafter, fields, hfields, rfl⟩ := h
  intro p hp
  rcases List.mem_append.mp hp with hp | hp
  · rcases List.mem_cons.mp hp with rfl | hp
    · exact ⟨he, narrowed_allOf he hrules (whereCondition_fits he hasked), hbefore, hafter⟩
    · obtain ⟨m, hm, hp⟩ := Mutation.mem_partsOf.mp hp
      rcases List.mem_append.mp hm with hm | hm
      · obtain ⟨ms, hms, hm⟩ := List.mem_flatten.mp hm
        obtain ⟨input, _, hinput⟩ := mem_of_mapM_ok hinside ms hms
        exact relatedUpdates_ok hinput p (Mutation.mem_partsOf.mpr ⟨m, hm, hp⟩)
      · exact relatedArguments_ok hbeside p (Mutation.mem_partsOf.mpr ⟨m, hm, hp⟩)
  · exact returnedFields_ok he hfields p hp

theorem delete_ok (he : e ∈ s.schema.entities.values) {d : Delete}
    (h : s.delete e q path = .ok d) : ∀ p ∈ (Operation.delete d).parts, s.Guards p := by
  simp only [delete, except_bind_ok, except_pure_ok] at h
  obtain ⟨members, _, asked, hasked, rules, hrules, before, hbefore, _, _, nested, hnested,
    rfl⟩ := h
  intro p hp
  rcases List.mem_cons.mp hp with rfl | hp
  · exact ⟨he, narrowed_allOf he hrules (whereCondition_fits he hasked), hbefore⟩
  · exact deletions_guards s _ _ _ hnested p hp

theorem entityOperation_ok (he : e ∈ s.schema.entities.values) {kind : OperationKind}
    {o : Operation} (h : s.entityOperation e kind q path = .ok o) :
    ∀ p ∈ o.parts, s.Guards p := by
  have hbelow : s.Reads (s.reader q.selection q.on) := reads_fieldsAt s _
  have hknown : ∀ e', Target.entity e = .entity e' → e' ∈ s.schema.entities.values := by
    intro e' heq
    cases heq
    exact he
  cases kind with
  | read =>
    obtain ⟨l, hl, rfl⟩ := (except_map_ok ..).mp h
    exact fun p hp => guards_of_selected ((readOf_ok hbelow hknown hl).2 p hp)
  | connection =>
    obtain ⟨l, hl, rfl⟩ := (except_map_ok ..).mp h
    exact fun p hp => guards_of_selected ((connectionOf_ok hbelow hknown hl).2 p hp)
  | aggregate =>
    obtain ⟨a, ha, rfl⟩ := (except_map_ok ..).mp h
    intro p hp
    rw [Operation.parts, List.mem_singleton] at hp
    exact hp ▸ rootAggregate_ok he ha
  | create =>
    obtain ⟨c, hc, rfl⟩ := (except_map_ok ..).mp h
    exact create_ok he hc
  | update =>
    obtain ⟨u, hu, rfl⟩ := (except_map_ok ..).mp h
    exact update_ok he hu
  | delete =>
    obtain ⟨d, hd, rfl⟩ := (except_map_ok ..).mp h
    exact delete_ok he hd

theorem compositeOperation_ok {c : Composite} {kind : OperationKind} {o : Operation}
    (h : s.compositeOperation c kind q path = .ok o) : ∀ p ∈ o.parts, s.Guards p := by
  have hbelow : s.Reads (s.reader q.selection q.on) := reads_fieldsAt s _
  have hknown : ∀ e, Target.composite c = .entity e → e ∈ s.schema.entities.values := by simp
  cases kind with
  | read =>
    obtain ⟨l, hl, rfl⟩ := (except_map_ok ..).mp h
    exact fun p hp => guards_of_selected ((readOf_ok hbelow hknown hl).2 p hp)
  | connection =>
    obtain ⟨l, hl, rfl⟩ := (except_map_ok ..).mp h
    exact fun p hp => guards_of_selected ((connectionOf_ok hbelow hknown hl).2 p hp)
  | aggregate => cases h
  | create => cases h
  | update => cases h
  | delete => cases h

/-- The rules of the schema guard every part of a plan. -/
theorem operation_guards {r : Request} {o : Operation} (h : s.operation r = .ok o) :
    ∀ p ∈ o.parts, s.Guards p := by
  simp only [operation, except_bind_ok] at h
  obtain ⟨target, htarget, h⟩ := h
  cases target with
  | entity e => exact entityOperation_ok (target_known (ofSchema_ok htarget)) h
  | composite c => exact compositeOperation_ok h

theorem operation_create {r : Request} {c : Create} (h : s.operation r = .ok (.create c)) :
    c.nodes ≠ [] := by
  simp only [operation, except_bind_ok] at h
  obtain ⟨target, _, h⟩ := h
  cases target with
  | entity e =>
    simp only [entityOperation] at h
    split at h
    all_goals
      obtain ⟨found, hfound, hmade⟩ := (except_map_ok ..).mp h
      cases hmade
    exact create_nodes hfound
  | composite c =>
    simp only [compositeOperation] at h
    split at h
    all_goals first
      | cases h
      | obtain ⟨found, hfound, hmade⟩ := (except_map_ok ..).mp h
        cases hmade

end Operations

end Setup

end GraphSelection.Resolve
