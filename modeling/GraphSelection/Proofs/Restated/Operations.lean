import GraphSelection.Proofs.Restated.Changes

/-!
Whole requests that restate one another. Both are refused with one failure, or both have plans that
differ in values only.
-/
namespace GraphSelection.Resolve

open GraphSelection Plan

variable {s : Setup} {schema : Schema} {g : Doc → Doc} {d d' : Nat}

/-- A list argument, item by item. -/
theorem listArg_agree {p q own : Place} {args args' : Doc.Members} {name : String}
    (h : Stands schema g d d' p (.record args) (.record args')) (hopens : p.opens = true)
    (hq : q ∈ p.under schema args name) (hitems : q.Holds schema own) (path : String) :
    Agree (List.Forall₂ (Stands schema g d d' own)) (listArg args name path)
      (listArg args' name path) := by
  have hget := get?_of_entries hq (h.succ.entries hopens)
  unfold listArg
  generalize args.get? name = found at hget
  generalize args'.get? name = found' at hget
  cases hget with
  | none => exact .ok .nil
  | @some v v' hv =>
    cases Doc.paired_of_kind (Place.kind_of_opens hitems.opens hv.permits) with
    | null => exact .ok .nil
    | list items items' => exact .ok (hv.items hitems.items)
    | record members members' => exact .ok (.cons (hitems.single hv) .nil)
    | other hother hother' =>
      cases v <;> cases hother <;> cases v' <;> cases hother' <;> exact .fault _

namespace Setup

variable {e : Entity} {r : Relationship} {item item' : Placed} {q q' : Asked}
  {views : List View} (hg : Substitution s g) (he : e ∈ s.schema.entities.values)

theorem relatedActions_cases {action : String} (h : relatedActions.contains action = true) :
    action = "create" ∨ action = "connect" ∨ action = "disconnect" ∨ action = "delete" := by
  simpa [relatedActions] using h

include hg

theorem relatedChange_agree {action : String} (haction : relatedActions.contains action = true)
    (h : PlacedStands s.schema g d d' (.change action r) item item') :
    Agree Mutation.Akin (s.relatedChange e action r item) (s.relatedChange e action r item') := by
  have hmake : MakersAgree s.schema g d d' s.newNode s.newNode :=
    fun _ he _ _ hitem => newNode_agree hg he hitem
  have hdeletions : DeletionsAgree s.schema g d d' s.deletions s.deletions :=
    fun _ he _ _ hitem => deletions_agree hg he hitem
  rcases relatedActions_cases haction with rfl | rfl | rfl | rfl
  · exact nestedCreate_agree hmake h
  · exact nestedConnect_agree hg h
  · exact nestedDisconnect_agree hg h
  · exact nestedDelete_agree hg hdeletions h

/-- One key of an update of a relationship. -/
theorem updateKey_agree {whole : Doc.Members} {key : String} {v v' : Doc}
    (h : ∀ q ∈ (Place.updating r).under s.schema whole key, Stands s.schema g d d' q v v')
    (path : String) :
    Agree (List.Forall₂ Mutation.Akin) (s.updateKey e r path key v)
      (s.updateKey e r path key v') := by
  unfold updateKey
  simp only
  split
  · exact .ok .nil
  · rename_i hother
    split
    · rename_i haction
      have hplace : Place.entries key r ∈ (Place.updating r).under s.schema whole key := by
        obtain ⟨hwhere, hupdate⟩ : key ≠ "where" ∧ key ≠ "update" := by simpa using hother
        simp only [Place.under, updatingPlaces, haction, if_true]
        exact List.mem_cons_self
      exact .bind (entriesOf_agree (holds_entries key r) (h _ hplace) _)
        fun _ _ hitems => Agree.mapM hitems fun _ _ hitem => relatedChange_agree hg haction hitem
    · exact .fault _

omit hg in
theorem isUpdated_same {members members' : Doc.Members}
    (h : Stands schema g d d' (.updating r) (.record members) (.record members')) :
    ((members'.get? "update").any fun value => !value.isNull) =
      (members.get? "update").any fun value => !value.isNull := by
  have hplace : Place.updated ∈ (Place.updating r).under schema members "update" :=
    List.mem_cons_self
  have hget := get?_of_entries hplace (h.succ.entries rfl)
  generalize members.get? "update" = found at hget
  generalize members'.get? "update" = found' at hget
  cases hget with
  | none => rfl
  | some hv => simp only [Option.any_some, Doc.isNull_of_kind hv.permits]

/-- One entry of an update of a relationship. -/
theorem updateEntry_agree (h : PlacedStands s.schema g d d' (.updating r) item item') :
    Agree (List.Forall₂ Mutation.Akin) (s.updateEntry e r item) (s.updateEntry e r item') := by
  have hplaced := h
  obtain ⟨path, hmembers⟩ := h
  simp only [updateEntry, isUpdated_same hmembers]
  refine .bind (R := List.Forall₂ Mutation.Akin) ?_ fun own own' hown => ?_
  · split
    · exact .map (nestedUpdate_agree hg hplaced) fun _ _ hm => .cons hm .nil
    · exact .ok .nil
  · refine .bind (Agree.mapM (S := List.Forall₂ Mutation.Akin) (hmembers.succ.entries rfl)
      fun entry entry' hentry => ?_) fun _ _ hothers =>
        .ok (List.rel_append hown (List.rel_flatten hothers))
    obtain ⟨key, v⟩ := entry
    obtain ⟨key', v'⟩ := entry'
    obtain ⟨rfl, hstands⟩ := hentry.spread
    exact updateKey_agree hg hstands path

theorem relatedUpdates_agree {input input' : RelatedInput}
    (h : RelatedStands s.schema g d d' .updates input input') :
    Agree (List.Forall₂ Mutation.Akin) (s.relatedUpdates e input)
      (s.relatedUpdates e input') := by
  obtain ⟨r, v, path⟩ := input
  obtain ⟨r', v', path'⟩ := input'
  obtain ⟨rfl, rfl, hvalue⟩ := h
  exact .bind (entriesOf_agree (holds_updates r) hvalue path)
    fun _ _ hitems => .flatten (Agree.mapM hitems fun _ _ hitem => updateEntry_agree hg hitem)

/-- The arguments of an update that are keyed by relationship. -/
theorem relatedArguments_agree {args args' : Doc.Members}
    (h : Stands s.schema g d d' (.update e) (.record args) (.record args')) (path : String) :
    Agree (List.Forall₂ Mutation.Akin) (s.relatedArguments e args path)
      (s.relatedArguments e args' path) := by
  have hactions : List.Forall₂ (fun action action' => action = action' ∧
      relatedActions.contains action = true) relatedActions relatedActions := by
    rw [List.forall₂_same]
    intro action haction
    exact ⟨rfl, List.contains_iff_mem.mpr haction⟩
  refine .flatten (Agree.mapM hactions fun action action' haction => ?_)
  obtain ⟨rfl, haction⟩ := haction
  have hplace : Place.byRelationship action e ∈ (Place.update e).under s.schema args action := by
    rcases relatedActions_cases haction with rfl | rfl | rfl | rfl <;> exact List.mem_cons_self
  refine .bind (recordArg_agree h rfl hplace rfl path)
    fun found found' hfound => ?_
  cases hfound with
  | none => exact .ok .nil
  | some hfound =>
    exact byRelationship_agree ⟨_, hfound.succ⟩ fun r _ _ hitem =>
      relatedChange_agree hg haction hitem

section Roots

include he

omit he in
theorem returnedFields_agree (he : e ∈ s.schema.entities.values) {p : Place}
    (hview : .fields e ∈ views) (h : AskedStands s.schema g d d' p views q q') (path : String) :
    Agree (FieldsAkin e.attributes.values) (s.returnedFields e q path)
      (s.returnedFields e q' path) :=
  reader_agree hg h e he _ _ path (h.fieldsFor hview)

theorem create_agree (hview : .fields e ∈ views)
    (h : AskedStands s.schema g d d' (.creation e) views q q') (path : String) :
    Agree Create.Akin (s.create e q path) (s.create e q' path) := by
  refine .bind (listArg_agree h.args rfl (q := .inputs e) List.mem_cons_self (holds_inputs e) path)
    fun values values' hvalues => ?_
  have hempty : values'.isEmpty = values.isEmpty := by cases hvalues <;> rfl
  rw [hempty]
  split
  · exact .fault _
  · refine .bind (Agree.mapM (S := NewNode.Akin Mutation.Akin) (forall₂_indexed hvalues)
      fun entry entry' hentry => ?_) fun nodes nodes' hnodes => ?_
    · obtain ⟨index, v⟩ := entry
      obtain ⟨index', v'⟩ := entry'
      obtain ⟨rfl, hv⟩ := hentry
      exact .bind (hv.record hv.permits _) fun _ _ hmembers => newNode_agree hg he ⟨_, hmembers⟩
    · exact .bind (returnedFields_agree hg he hview h path)
        fun _ _ hfields => .ok (.intro _ hnodes hfields.1)

/-- The arguments of an update, and what it gives back. -/
theorem update_agree (hview : .fields e ∈ views)
    (h : AskedStands s.schema g d d' (.update e) views q q') (path : String) :
    Agree Update.Akin (s.update e q path) (s.update e q' path) := by
  refine .bind (recordArg_agree h.args rfl (q := .updateInput e) List.mem_cons_self rfl path)
    fun members members' hmembers => ?_
  have hplaces : ∀ whole key r, e.relationship? key = some r →
      Place.updates r ∈ (Place.updateInput e).under s.schema whole key := by
    intro whole key r hr
    simp [Place.under, hr]
  have hentries := (OptionStands.getD hmembers rfl).succ.entries rfl
  refine .bind (nodeInput_agree (hplaces _) hentries _).told fun input input' hread => ?_
  obtain ⟨hinput, hwithin⟩ := hread
  refine .bind (Agree.mapM hinput.related fun _ _ hrelated => relatedUpdates_agree hg hrelated)
    fun inside inside' hinside => ?_
  refine .bind (relatedArguments_agree hg h.args path) fun beside beside' hbeside => ?_
  rw [writtenBy_akin hinput.assignments]
  refine .bind (recordArg_agree h.args rfl (q := .object (.node e)) List.mem_cons_self rfl path)
    fun members members' hmembers => ?_
  refine .bind (asked_agree hg hmembers _) fun asked asked' hasked => ?_
  refine joined_agree hg he (nodeInput_within hwithin) .update fun rules hrules => ?_
  refine .skip _ fun before => .skip _ fun after => ?_
  refine .bind (returnedFields_agree hg he hview h path) fun fields fields' hfields => .ok ?_
  exact .intro _ _ _ ⟨_, hg.faithful, Condition.allOf_akin (List.rel_append hasked.toList hrules)⟩
    hinput.assignments (List.rel_append (List.rel_flatten hinside) hbeside) hfields.1

theorem delete_agree (h : AskedStands s.schema g d d' (.deletion e) views q q') (path : String) :
    Agree Delete.Akin (s.delete e q path) (s.delete e q' path) := by
  refine .bind (recordArg_agree h.args rfl (q := .object (.node e)) List.mem_cons_self rfl path)
    fun members members' hmembers => ?_
  refine .bind (asked_agree hg hmembers _) fun asked asked' hasked => ?_
  refine joined_agree hg he (List.nil_subset _) .delete fun rules hrules => ?_
  refine .skip _ fun before => ?_
  refine .bind
    (recordArg_agree h.args rfl (q := .byRelationship "delete" e) List.mem_cons_self rfl path)
    fun members members' hmembers => ?_
  refine .bind (deletions_agree hg he ⟨_, OptionStands.getD hmembers rfl⟩)
    fun nested nested' hnested => .ok (.intro _ _ ⟨_, hg.faithful, ?_⟩ hnested)
  exact Condition.allOf_akin (List.rel_append hasked.toList hrules)

theorem rootAggregate_agree
    (h : AskedStands s.schema g d d' (.lookup (.target (.ok (.entity e)))) views q q')
    (path : String) :
    Agree Aggregate.Akin (rootAggregate s e q.args q.selection path)
      (rootAggregate s e q'.args q'.selection path) := by
  simp only [rootAggregate, ← aggregateItems_restated h.selection]
  refine .given _ fun items hitems => ?_
  exact guardedAggregate_agree hg he none h.args (aggregateItems_within hitems) path

theorem entityOperation_agree (kind : OperationKind)
    (h : ∀ p ∈ argumentPlaces (.ok (.entity e)) kind,
      AskedStands s.schema g d d' p (rootViews s.schema (.ok (.entity e)) kind) q q')
    (path : String) :
    Agree Operation.Akin (s.entityOperation e kind q path)
      (s.entityOperation e kind q' path) := by
  have hview : View.fields e ∈ (entitiesOf s.schema (.ok (.entity e))).map View.fields :=
    List.mem_cons_self
  have hknown : ∀ own, Target.entity e = .entity own → own ∈ s.schema.entities.values := by
    rintro own ⟨⟩
    exact he
  cases kind with
  | read =>
    have hasked := h _ List.mem_cons_self
    exact .map (readOf_agree hg (reader_agree hg hasked) hknown hasked path)
      fun _ _ hl => .lookup hl
  | connection =>
    have hasked := h _ List.mem_cons_self
    exact .map (connectionOf_agree hg (reader_agree hg hasked) hknown (by simp) hasked path)
      fun _ _ hl => .lookup hl
  | aggregate =>
    exact .map (rootAggregate_agree hg he (h _ List.mem_cons_self) path) fun _ _ ha => .aggregate ha
  | create =>
    exact .map (create_agree hg he hview (h _ List.mem_cons_self) path) fun _ _ hc => .create hc
  | update =>
    exact .map (update_agree hg he hview (h _ List.mem_cons_self) path) fun _ _ hu => .update hu
  | delete =>
    exact .map (delete_agree hg he (h _ List.mem_cons_self) path) fun _ _ hd => .delete hd

end Roots

theorem compositeOperation_agree {c : Composite} (kind : OperationKind)
    (h : ∀ p ∈ argumentPlaces (.ok (.composite c)) kind,
      AskedStands s.schema g d d' p (rootViews s.schema (.ok (.composite c)) kind) q q')
    (path : String) :
    Agree Operation.Akin (s.compositeOperation c kind q path)
      (s.compositeOperation c kind q' path) := by
  cases kind with
  | read =>
    have hasked := h _ List.mem_cons_self
    exact .map (readOf_agree hg (reader_agree hg hasked) (by simp) hasked path)
      fun _ _ hl => .lookup hl
  | connection =>
    have hasked := h _ List.mem_cons_self
    exact .map (connectionOf_agree hg (reader_agree hg hasked) (by simp) (by simp) hasked path)
      fun _ _ hl => .lookup hl
  | aggregate | create | update | delete => exact .fault _

/-- Requests that restate one another have kindred plans, or none for the same reason. -/
theorem operation_agree {r r' : Request} (h : Restated s.schema g r r') :
    Agree Operation.Akin (s.operation r) (s.operation r') := by
  simp only [operation, h.operation, h.entity]
  have hasked : ∀ p ∈ argumentPlaces (s.schema.target r.entity) r.operation,
      AskedStands s.schema g (Doc.membersHeight r.args) (Doc.membersHeight r'.args) p
        (rootViews s.schema (s.schema.target r.entity) r.operation)
        ⟨r.args, r.selection, r.on⟩ ⟨r'.args, r'.selection, r'.on⟩ := by
    intro p hp
    exact ⟨stands_of_docRestated h.args hp (Nat.le_refl _) (Nat.le_refl _), h.selection, h.on⟩
  refine .given _ fun target htarget => ?_
  replace htarget := ofSchema_ok htarget
  rw [htarget] at hasked
  cases target with
  | entity e => exact entityOperation_agree hg (target_known htarget) _ hasked _
  | composite c => exact compositeOperation_agree hg _ hasked _

end Setup

end GraphSelection.Resolve
