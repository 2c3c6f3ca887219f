import GraphSelection.Proofs.Resolved.Changes
import GraphSelection.Proofs.Resolved.Entries

/-!
Where nested changes come from. Every nested change of a plan, however deep it stands, was made out
of one item of the request by the maker of its own kind; what a maker puts into a change is thereby
known of all changes of that kind in a plan.
-/
namespace GraphSelection.Resolve

open GraphSelection Plan

namespace Setup

/-- The change is made out of one item, below the node of some owner. -/
inductive Makes (s : Setup) : Mutation → Prop
  | create {make : NodeMaker} {owner : Entity} {r : Relationship} {item : Placed} {m : Mutation}
      (h : s.nestedCreate make owner r item = .ok m) : Makes s m
  | connect {owner : Entity} {r : Relationship} {item : Placed} {m : Mutation}
      (h : s.nestedConnect owner r item = .ok m) : Makes s m
  | disconnect {owner : Entity} {r : Relationship} {item : Placed} {m : Mutation}
      (h : s.nestedDisconnect owner r item = .ok m) : Makes s m
  | update {owner : Entity} {r : Relationship} {item : Placed} {m : Mutation}
      (h : s.nestedUpdate owner r item = .ok m) : Makes s m
  | delete {deletions : DeletionReader} {owner : Entity} {r : Relationship} {item : Placed}
      {m : Mutation} (h : s.nestedDelete deletions owner r item = .ok m) : Makes s m

/-- Every change among the parts is made out of an item. -/
def AllMade (s : Setup) (parts : List Part) : Prop := ∀ m, Part.change m ∈ parts → s.Makes m

section Nested

variable {s : Setup} {owner e : Entity} {r : Relationship} {item : Placed} {m : Mutation}
  {ms : List Mutation}

theorem AllMade.append {parts parts' : List Part} (h : s.AllMade parts) (h' : s.AllMade parts') :
    s.AllMade (parts ++ parts') := by
  intro m hm
  rcases List.mem_append.mp hm with hm | hm
  · exact h m hm
  · exact h' m hm

/-- A change comes first among its parts, which are all made when it and those inside it are. -/
theorem AllMade.first {parts : List Part} (hm : s.Makes m) (h : s.AllMade parts) :
    s.AllMade (.change m :: parts) := by
  intro m' hm'
  rcases List.mem_cons.mp hm' with heq | hm'
  · cases heq
    exact hm
  · exact h m' hm'

theorem allMade_nil : s.AllMade [] := fun _ h => absurd h List.not_mem_nil

theorem allMade_partsOf (h : ∀ m ∈ ms, s.AllMade m.parts) : s.AllMade (Mutation.partsOf ms) := by
  intro m hm
  obtain ⟨m', hm', hpart⟩ := Mutation.mem_partsOf.mp hm
  exact h m' hm' m hpart

theorem allMade_flatten {groups : List (List Mutation)}
    (h : ∀ ms ∈ groups, s.AllMade (Mutation.partsOf ms)) :
    s.AllMade (Mutation.partsOf groups.flatten) := by
  refine allMade_partsOf fun m hm => ?_
  obtain ⟨ms, hms, hm⟩ := List.mem_flatten.mp hm
  exact fun m' hm' => h ms hms m' (Mutation.mem_partsOf.mpr ⟨m, hm, hm'⟩)

/-- Changes that are read one by one. -/
theorem allMade_mapM {α : Type} {f : α → Result Mutation} {xs : List α}
    (hf : ∀ x m, f x = .ok m → s.AllMade m.parts) (h : xs.mapM f = .ok ms) :
    s.AllMade (Mutation.partsOf ms) := by
  refine allMade_partsOf fun m hm => ?_
  obtain ⟨x, _, hx⟩ := mem_of_mapM_ok h m hm
  exact hf x m hx

/-- A new node with changes inside it that are all made. -/
def MakesNodes (s : Setup) (make : NodeMaker) : Prop :=
  ∀ e item n, make e item = .ok n → s.AllMade (Mutation.partsOf n.nested)

def MakesDeletions (s : Setup) (deletions : DeletionReader) : Prop :=
  ∀ e item ms, deletions e item = .ok ms → s.AllMade (Mutation.partsOf ms)

theorem nestedCreate_made {make : NodeMaker} (hmake : s.MakesNodes make)
    (h : s.nestedCreate make owner r item = .ok m) : s.AllMade m.parts := by
  have hm : s.Makes m := .create h
  simp only [nestedCreate, except_bind_ok, except_pure_ok] at h
  obtain ⟨l, _, members, _, n, hn, linked, _, _, _, edge, _, rfl⟩ := h
  exact .first hm (hmake _ _ _ hn)

theorem nestedConnect_made (h : s.nestedConnect owner r item = .ok m) : s.AllMade m.parts := by
  have hm : s.Makes m := .connect h
  simp only [nestedConnect, except_bind_ok, except_pure_ok] at h
  obtain ⟨l, _, filter, _, validations, _, _, _, edge, _, rfl⟩ := h
  exact .first hm allMade_nil

theorem nestedDisconnect_made (h : s.nestedDisconnect owner r item = .ok m) :
    s.AllMade m.parts := by
  have hm : s.Makes m := .disconnect h
  simp only [nestedDisconnect, except_bind_ok, except_pure_ok] at h
  obtain ⟨l, _, filter, _, validations, _, rfl⟩ := h
  exact .first hm allMade_nil

theorem nestedUpdate_made (h : s.nestedUpdate owner r item = .ok m) : s.AllMade m.parts := by
  have hm : s.Makes m := .update h
  simp only [nestedUpdate, except_bind_ok, except_pure_ok] at h
  obtain ⟨l, _, filter, _, _, _, _, _, node, _, _, _, edge, _, before, _, after, _, rfl⟩ := h
  exact .first hm allMade_nil

theorem nestedDelete_made {deletions : DeletionReader} (hdeletions : s.MakesDeletions deletions)
    (h : s.nestedDelete deletions owner r item = .ok m) : s.AllMade m.parts := by
  have hm : s.Makes m := .delete h
  simp only [nestedDelete, except_bind_ok, except_pure_ok] at h
  obtain ⟨l, _, filter, _, before, _, nested, ⟨members, _, hnested⟩, rfl⟩ := h
  refine .first hm ?_
  cases members with
  | none =>
    simp only [except_pure_ok] at hnested
    subst hnested
    exact allMade_nil
  | some members => exact hdeletions _ _ _ hnested

theorem newNodeChange_made {make : NodeMaker} (hmake : s.MakesNodes make) {action path : String}
    (h : s.newNodeChange make owner r action path item = .ok m) : s.AllMade m.parts := by
  unfold newNodeChange at h
  split at h
  · exact nestedCreate_made hmake h
  · exact nestedConnect_made h
  · cases h

theorem newNodeChanges_made {make : NodeMaker} (hmake : s.MakesNodes make) {input : RelatedInput}
    (h : s.newNodeChanges make owner input = .ok ms) : s.AllMade (Mutation.partsOf ms) := by
  simp only [newNodeChanges, except_bind_ok, except_pure_ok] at h
  obtain ⟨actions, _, found, hfound, rfl⟩ := h
  refine allMade_flatten fun ms hms => ?_
  obtain ⟨⟨action, value⟩, _, hentry⟩ := mem_of_mapM_ok hfound ms hms
  simp only [except_bind_ok] at hentry
  obtain ⟨items, _, hitems⟩ := hentry
  exact allMade_mapM (fun _ _ => newNodeChange_made hmake) hitems

theorem newNodeAt_made (s : Setup) (depth : Nat) : s.MakesNodes (s.newNodeAt depth) := by
  induction depth with
  | zero =>
    intro e item n h
    simp only [newNodeAt, checkedNode, except_bind_ok, except_pure_ok] at h
    obtain ⟨validations, _, rfl⟩ := h
    exact allMade_nil
  | succ depth ih =>
    intro e item n h
    simp only [newNodeAt, checkedNode, except_bind_ok, except_pure_ok] at h
    obtain ⟨input, _, nested, hnested, validations, _, rfl⟩ := h
    refine allMade_flatten fun ms hms => ?_
    obtain ⟨related, _, hrelated⟩ := mem_of_mapM_ok hnested ms hms
    exact newNodeChanges_made ih hrelated

theorem byRelationship_made {read : Relationship → Placed → Result Mutation}
    (hread : ∀ r item m, read r item = .ok m → s.AllMade m.parts)
    (h : byRelationship e item read = .ok ms) : s.AllMade (Mutation.partsOf ms) := by
  simp only [byRelationship, except_bind_ok, except_pure_ok] at h
  obtain ⟨found, hfound, rfl⟩ := h
  refine allMade_flatten fun ms hms => ?_
  obtain ⟨⟨name, value⟩, _, hentry⟩ := mem_of_mapM_ok hfound ms hms
  simp only at hentry
  split at hentry
  · simp only [except_throw_ok] at hentry
  · simp only [except_bind_ok] at hentry
    obtain ⟨items, _, hitems⟩ := hentry
    exact allMade_mapM (hread _) hitems

theorem deletionsAt_made (s : Setup) (depth : Nat) : s.MakesDeletions (s.deletionsAt depth) := by
  induction depth with
  | zero =>
    intro e item ms h
    cases h
    exact allMade_nil
  | succ depth ih =>
    intro e item ms h
    exact byRelationship_made (fun _ _ _ hm => nestedDelete_made ih hm) h

end Nested

section Operations

variable {s : Setup} {e : Entity} {q : Asked} {path : String}

/-- A selection has no changes. -/
theorem selected_made {parts : List Part} (h : ∀ p ∈ parts, s.GuardsSelected p) :
    s.AllMade parts :=
  fun _ hm => (h _ hm).elim

theorem returnedFields_made (he : e ∈ s.schema.entities.values) {fields : List Field}
    (h : s.returnedFields e q path = .ok fields) : s.AllMade (Field.partsOf fields) :=
  selected_made (reads_fieldsAt s _ e _ _ _ he h)

theorem newNodes_made {nodes : List (NewNode Mutation)}
    (h : ∀ n ∈ nodes, s.AllMade (Mutation.partsOf n.nested)) :
    s.AllMade (nodes.flatMap (newNodeParts e)) := by
  intro m hm
  obtain ⟨n, hn, hm⟩ := List.mem_flatMap.mp hm
  rcases List.mem_cons.mp hm with heq | hm
  · cases heq
  · exact h n hn m hm

theorem create_made (he : e ∈ s.schema.entities.values) {c : Create}
    (h : s.create e q path = .ok c) : s.AllMade (Operation.create c).parts := by
  simp only [create, except_bind_ok] at h
  obtain ⟨values, _, h⟩ := h
  split at h
  · simp only [except_bind_ok, except_throw_ok, false_and, exists_false] at h
  · simp only [except_bind_ok, except_pure_ok] at h
    obtain ⟨nodes, hnodes, fields, hfields, rfl⟩ := h
    refine AllMade.append (newNodes_made fun n hn => ?_) (returnedFields_made he hfields)
    obtain ⟨⟨index, value⟩, _, hmade⟩ := mem_of_mapM_ok hnodes n hn
    simp only [except_bind_ok] at hmade
    obtain ⟨members, _, hmade⟩ := hmade
    exact newNodeAt_made s _ _ _ _ hmade

theorem relatedChange_made {action : String} {r : Relationship} {item : Placed} {m : Mutation}
    (h : s.relatedChange e action r item = .ok m) : s.AllMade m.parts := by
  unfold relatedChange at h
  split at h
  · exact nestedCreate_made (fun e item n hn => newNodeAt_made s _ e item n hn) h
  · exact nestedConnect_made h
  · exact nestedDisconnect_made h
  · exact nestedDelete_made (fun e item ms hms => deletionsAt_made s _ e item ms hms) h

theorem updateKey_made {r : Relationship} {key : String} {value : Doc} {ms : List Mutation}
    (h : s.updateKey e r path key value = .ok ms) : s.AllMade (Mutation.partsOf ms) := by
  unfold updateKey at h
  simp only at h
  split at h
  · simp only [except_pure_ok] at h
    subst h
    exact allMade_nil
  · split at h
    · simp only [except_bind_ok] at h
      obtain ⟨items, _, hitems⟩ := h
      exact allMade_mapM (fun _ _ => relatedChange_made) hitems
    · simp only [except_throw_ok] at h

theorem updateEntry_made {r : Relationship} {item : Placed} {ms : List Mutation}
    (h : s.updateEntry e r item = .ok ms) : s.AllMade (Mutation.partsOf ms) := by
  simp only [updateEntry, except_bind_ok, except_pure_ok] at h
  obtain ⟨own, hown, others, hothers, rfl⟩ := h
  have hfirst : ∀ m ∈ own, s.AllMade m.parts := by
    intro m hm
    split at hown
    · obtain ⟨update, hupdate, rfl⟩ := (except_map_ok ..).mp hown
      rw [List.mem_singleton] at hm
      exact nestedUpdate_made (hm ▸ hupdate)
    · cases hown
      exact absurd hm List.not_mem_nil
  have hrest : s.AllMade (Mutation.partsOf others.flatten) := by
    refine allMade_flatten fun ms hms => ?_
    obtain ⟨⟨key, value⟩, _, hkey⟩ := mem_of_mapM_ok hothers ms hms
    exact updateKey_made hkey
  refine allMade_partsOf fun m hm => ?_
  rcases List.mem_append.mp hm with hm | hm
  · exact hfirst m hm
  · exact fun m' hm' => hrest m' (Mutation.mem_partsOf.mpr ⟨m, hm, hm'⟩)

theorem relatedUpdates_made {input : RelatedInput} {ms : List Mutation}
    (h : s.relatedUpdates e input = .ok ms) : s.AllMade (Mutation.partsOf ms) := by
  simp only [relatedUpdates, except_bind_ok, except_pure_ok] at h
  obtain ⟨items, _, found, hfound, rfl⟩ := h
  refine allMade_flatten fun ms hms => ?_
  obtain ⟨item, _, hitem⟩ := mem_of_mapM_ok hfound ms hms
  exact updateEntry_made hitem

theorem relatedArguments_made {args : Doc.Members} {ms : List Mutation}
    (h : s.relatedArguments e args path = .ok ms) : s.AllMade (Mutation.partsOf ms) := by
  simp only [relatedArguments, except_bind_ok, except_pure_ok] at h
  obtain ⟨found, hfound, rfl⟩ := h
  refine allMade_flatten fun ms hms => ?_
  obtain ⟨action, _, haction⟩ := mem_of_mapM_ok hfound ms hms
  simp only [except_bind_ok] at haction
  obtain ⟨members, _, haction⟩ := haction
  cases members with
  | none =>
    simp only [except_pure_ok] at haction
    subst haction
    exact allMade_nil
  | some members => exact byRelationship_made (fun _ _ _ hm => relatedChange_made hm) haction

theorem update_made (he : e ∈ s.schema.entities.values) {u : Update}
    (h : s.update e q path = .ok u) : s.AllMade (Operation.update u).parts := by
  simp only [update, except_bind_ok, except_pure_ok] at h
  obtain ⟨_, _, input, _, inside, hinside, beside, hbeside, _, _, _, _, _, _, _, _, _, _, fields,
    hfields, rfl⟩ := h
  have hnested : s.AllMade (Mutation.partsOf (inside.flatten ++ beside)) := by
    have hgroups : s.AllMade (Mutation.partsOf (inside ++ [beside]).flatten) := by
      refine allMade_flatten fun ms hms => ?_
      rcases List.mem_append.mp hms with hms | hms
      · obtain ⟨input, _, hinput⟩ := mem_of_mapM_ok hinside ms hms
        exact relatedUpdates_made hinput
      · rw [List.mem_singleton] at hms
        exact relatedArguments_made (hms ▸ hbeside)
    simpa using hgroups
  intro m hm
  rcases List.mem_append.mp hm with hm | hm
  · rcases List.mem_cons.mp hm with heq | hm
    · cases heq
    · exact hnested m hm
  · exact returnedFields_made he hfields m hm

theorem delete_made {d : Delete} (h : s.delete e q path = .ok d) :
    s.AllMade (Operation.delete d).parts := by
  simp only [delete, except_bind_ok, except_pure_ok] at h
  obtain ⟨_, _, _, _, _, _, _, _, _, _, nested, hnested, rfl⟩ := h
  intro m hm
  rcases List.mem_cons.mp hm with heq | hm
  · cases heq
  · exact deletionsAt_made s _ _ _ _ hnested m hm

theorem entityOperation_made (he : e ∈ s.schema.entities.values) {kind : OperationKind}
    {o : Operation} (h : s.entityOperation e kind q path = .ok o) : s.AllMade o.parts := by
  have hbelow : s.Reads (s.reader q.selection q.on) := reads_fieldsAt s _
  have hknown : ∀ e', Target.entity e = .entity e' → e' ∈ s.schema.entities.values := by
    intro e' heq
    cases heq
    exact he
  cases kind with
  | read =>
    obtain ⟨l, hl, rfl⟩ := (except_map_ok ..).mp h
    exact selected_made (readOf_ok hbelow hknown hl).2
  | connection =>
    obtain ⟨l, hl, rfl⟩ := (except_map_ok ..).mp h
    exact selected_made (connectionOf_ok hbelow hknown hl).2
  | aggregate =>
    obtain ⟨a, _, rfl⟩ := (except_map_ok ..).mp h
    intro m hm
    rw [Operation.parts, List.mem_singleton] at hm
    cases hm
  | create =>
    obtain ⟨c, hc, rfl⟩ := (except_map_ok ..).mp h
    exact create_made he hc
  | update =>
    obtain ⟨u, hu, rfl⟩ := (except_map_ok ..).mp h
    exact update_made he hu
  | delete =>
    obtain ⟨d, hd, rfl⟩ := (except_map_ok ..).mp h
    exact delete_made hd

theorem compositeOperation_made {c : Composite} {kind : OperationKind} {o : Operation}
    (h : s.compositeOperation c kind q path = .ok o) : s.AllMade o.parts := by
  have hbelow : s.Reads (s.reader q.selection q.on) := reads_fieldsAt s _
  have hknown : ∀ e, Target.composite c = .entity e → e ∈ s.schema.entities.values := by simp
  cases kind with
  | read =>
    obtain ⟨l, hl, rfl⟩ := (except_map_ok ..).mp h
    exact selected_made (readOf_ok hbelow hknown hl).2
  | connection =>
    obtain ⟨l, hl, rfl⟩ := (except_map_ok ..).mp h
    exact selected_made (connectionOf_ok hbelow hknown hl).2
  | aggregate => cases h
  | create => cases h
  | update => cases h
  | delete => cases h

/-- Every nested change of a plan is made out of an item of the request. -/
theorem operation_made {r : Request} {o : Operation} (h : s.operation r = .ok o) :
    s.AllMade o.parts := by
  simp only [operation, except_bind_ok] at h
  obtain ⟨target, htarget, h⟩ := h
  cases target with
  | entity e => exact entityOperation_made (target_known (ofSchema_ok htarget)) h
  | composite c => exact compositeOperation_made h

/-- A part that is changed at the root of a request was read from the request as a whole. -/
def MadeAtRoot (s : Setup) : Part → Prop
  | .update u => ∃ e q path, s.update e q path = .ok u
  | .delete d => ∃ e q path, s.delete e q path = .ok d
  | _ => True

theorem selected_atRoot {p : Part} (h : s.GuardsSelected p) : s.MadeAtRoot p := by
  cases p with
  | field f => trivial
  | lookup l => trivial
  | aggregate a => trivial
  | newNode e n => trivial
  | change m => trivial
  | update u => exact h.elim
  | delete d => exact h.elim

theorem nested_atRoot {ms : List Mutation} {p : Part} (h : p ∈ Mutation.partsOf ms) :
    s.MadeAtRoot p := by
  obtain ⟨m, rfl⟩ := Mutation.change_of_mem_partsOf ms p h
  trivial

theorem returnedFields_atRoot (he : e ∈ s.schema.entities.values) {fields : List Field}
    (h : s.returnedFields e q path = .ok fields) : ∀ p ∈ Field.partsOf fields, s.MadeAtRoot p :=
  fun p hp => selected_atRoot (reads_fieldsAt s _ e _ _ _ he h p hp)

theorem entityOperation_atRoot (he : e ∈ s.schema.entities.values) {kind : OperationKind}
    {o : Operation} (h : s.entityOperation e kind q path = .ok o) :
    ∀ p ∈ o.parts, s.MadeAtRoot p := by
  have hbelow : s.Reads (s.reader q.selection q.on) := reads_fieldsAt s _
  have hknown : ∀ e', Target.entity e = .entity e' → e' ∈ s.schema.entities.values := by
    intro e' heq
    cases heq
    exact he
  intro p hp
  cases kind with
  | read =>
    obtain ⟨l, hl, rfl⟩ := (except_map_ok ..).mp h
    exact selected_atRoot ((readOf_ok hbelow hknown hl).2 p hp)
  | connection =>
    obtain ⟨l, hl, rfl⟩ := (except_map_ok ..).mp h
    exact selected_atRoot ((connectionOf_ok hbelow hknown hl).2 p hp)
  | aggregate =>
    obtain ⟨a, _, rfl⟩ := (except_map_ok ..).mp h
    rw [Operation.parts, List.mem_singleton] at hp
    subst hp
    trivial
  | create =>
    obtain ⟨c, hc, rfl⟩ := (except_map_ok ..).mp h
    obtain ⟨rfl, hfields⟩ := create_fields hc
    rcases List.mem_append.mp hp with hp | hp
    · obtain ⟨n, _, hp⟩ := List.mem_flatMap.mp hp
      rcases List.mem_cons.mp hp with rfl | hp
      · trivial
      · exact nested_atRoot hp
    · exact returnedFields_atRoot he hfields p hp
  | update =>
    obtain ⟨u, hu, rfl⟩ := (except_map_ok ..).mp h
    obtain ⟨rfl, hfields⟩ := update_fields hu
    rcases List.mem_append.mp hp with hp | hp
    · rcases List.mem_cons.mp hp with rfl | hp
      · exact ⟨_, q, path, hu⟩
      · exact nested_atRoot hp
    · exact returnedFields_atRoot he hfields p hp
  | delete =>
    obtain ⟨d, hd, rfl⟩ := (except_map_ok ..).mp h
    rcases List.mem_cons.mp hp with rfl | hp
    · exact ⟨_, q, path, hd⟩
    · exact nested_atRoot hp

/-- An update or a deletion among the parts of a plan is the operation itself. -/
theorem operation_atRoot {r : Request} {o : Operation} (h : s.operation r = .ok o) :
    ∀ p ∈ o.parts, s.MadeAtRoot p := by
  simp only [operation, except_bind_ok] at h
  obtain ⟨target, htarget, h⟩ := h
  cases target with
  | entity e => exact entityOperation_atRoot (target_known (ofSchema_ok htarget)) h
  | composite c =>
    have hbelow : s.Reads (s.reader r.selection r.on) := reads_fieldsAt s _
    have hknown : ∀ e, Target.composite c = .entity e → e ∈ s.schema.entities.values := by simp
    intro p hp
    simp only [compositeOperation] at h
    split at h
    · obtain ⟨l, hl, rfl⟩ := (except_map_ok ..).mp h
      exact selected_atRoot ((readOf_ok hbelow hknown hl).2 p hp)
    · obtain ⟨l, hl, rfl⟩ := (except_map_ok ..).mp h
      exact selected_atRoot ((connectionOf_ok hbelow hknown hl).2 p hp)
    · cases h
    · cases h
    · cases h
    · cases h

end Operations

end Setup

end GraphSelection.Resolve
