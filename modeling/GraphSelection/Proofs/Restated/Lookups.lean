import GraphSelection.Proofs.Restated.Fields

/-!
Connections and whole selections that restate one another. What is selected under one level is
read alike by readers of the level below that agree, and at height zero nothing is selected.
-/
namespace GraphSelection.Resolve

open GraphSelection Plan

variable {s : Setup} {schema : Schema} {g : Doc → Doc} {d d' : Nat}

section Connections

open Setup

variable {via : Option Via} {found : Except SchemaFault Target}

variable (schema g d d') in
/-- Objects in one place, under one path. -/
inductive PlacedStands (q : Place) : Placed → Placed → Prop
  | intro (path : String) {members members' : Doc.Members} :
      Stands schema g d d' q (.record members) (.record members') →
      PlacedStands q ⟨members, path⟩ ⟨members', path⟩

/-- The place of the conditions of a connection. -/
def connectionPlace (found : Except SchemaFault Target) : Option Via → Place
  | none => .target found
  | some v => .connected v.relationship

variable (schema g d d') in
/-- Only a connection over a relationship has conditions on its edges. -/
structure WhereStands (found : Except SchemaFault Target) (via : Option Via)
    (parts parts' : ConnectionWhere) : Prop where
  node : Option.Rel (PlacedStands schema g d d' (.target found)) parts.node parts'.node
  edge : Option.Rel (fun edge edge' => ∃ v, via = some v ∧
    PlacedStands schema g d d' (.edge v.relationship) edge edge') parts.edge parts'.edge

theorem wherePart_agree {v : Via} {whole : Doc.Members} {parts parts' : ConnectionWhere}
    {entry entry' : String × Doc}
    (hparts : WhereStands schema g d d' (schema.targetOf v.relationship) (some v) parts parts')
    (h : EntryStands schema g d d' (.connected v.relationship) whole entry entry')
    (path : String) :
    Agree (WhereStands schema g d d' (schema.targetOf v.relationship) (some v))
      (wherePart path parts entry) (wherePart path parts' entry') := by
  obtain ⟨key, value⟩ := entry
  obtain ⟨key', value'⟩ := entry'
  obtain ⟨rfl, hstands⟩ := h.spread
  simp only [wherePart]
  by_cases hnode : key = "node"
  · subst hnode
    have hvalue : Stands schema g d d' (.target (schema.targetOf v.relationship)) value value' :=
      hstands _ List.mem_cons_self
    rw [Doc.isNull_of_kind hvalue.permits]
    split
    · exact .fault _
    split
    · exact .ok hparts
    · exact .bind (hvalue.record hvalue.permits _) fun _ _ hmembers =>
        .ok ⟨.some ⟨_, hmembers⟩, hparts.edge⟩
  · by_cases hedge : key = "edge"
    · subst hedge
      have hvalue : Stands schema g d d' (.edge v.relationship) value value' :=
        hstands _ List.mem_cons_self
      rw [Doc.isNull_of_kind hvalue.permits]
      split
      · exact .fault _
      split
      · exact .ok hparts
      · exact .bind (hvalue.record hvalue.permits _) fun _ _ hmembers =>
          .ok ⟨hparts.node, .some ⟨v, rfl, ⟨_, hmembers⟩⟩⟩
    · simp only [hnode, hedge, ne_eq, not_false_eq_true, decide_true, Bool.and_self, ↓reduceIte]
      exact .fault _

theorem connectionWhere_agree {args args' : Doc.Members}
    (hvia : ∀ v, via = some v → schema.targetOf v.relationship = found)
    (h : Stands schema g d d' (.lookup (connectionPlace found via)) (.record args) (.record args'))
    (path : String) :
    Agree (WhereStands schema g d d' found via) (connectionWhere args via.isSome path)
      (connectionWhere args' via.isSome path) := by
  cases via with
  | none =>
    refine .bind (where_agree h path) fun members members' hmembers => ?_
    cases hmembers with
    | none => exact .ok ⟨.none, .none⟩
    | some hmembers => exact .ok ⟨.some ⟨_, hmembers⟩, .none⟩
  | some v =>
    obtain rfl := hvia v rfl
    refine .bind
      (recordArg_agree (q := .connected v.relationship) h rfl List.mem_cons_self rfl path)
      fun members members' hmembers => ?_
    cases hmembers with
    | none => exact .ok ⟨.none, .none⟩
    | some hmembers =>
      exact .foldlM (hmembers.succ.entries rfl)
        (fun _ _ _ _ hparts hentry => wherePart_agree hparts hentry _) ⟨.none, .none⟩

section Merged

variable {entities : List Entity}

/-- The selections of one name. -/
theorem named_restated {views : List View} {fields fields' : List Selection} (name : String)
    (h : List.Forall₂ (SelectionRestated schema g views) fields fields') :
    List.Forall₂ (fun f f' => f.name = name ∧ SelectionRestated schema g views f f')
      (fields.filter (·.name == name)) (fields'.filter (·.name == name)) := by
  induction h with
  | nil => exact .nil
  | @cons f f' rest rest' hf _ ih =>
    rw [List.filter_cons, List.filter_cons, ← hf.name]
    split
    · rename_i hname
      exact .cons ⟨beq_iff_eq.mp hname, hf⟩ ih
    · exact ih

theorem nodeSelections_restated {selection selection' : List Selection}
    (h : SelectionsRestated schema g [.connection entities] selection selection') :
    List.Forall₂ (fun f f' => f.name = "node" ∧ SelectionRestated schema g [.edges entities] f f')
      (nodeSelections selection) (nodeSelections selection') := by
  refine List.rel_flatMap (named_restated "edges" (selectionsRestated_iff.mp h)) ?_
  rintro f f' ⟨hname, hf⟩
  have hselection := hf.selection
  rw [hname] at hselection
  exact named_restated "node" (selectionsRestated_iff.mp hselection)

theorem mergedFor_restated {e : Entity} (he : e ∈ entities) {nodes nodes' : List Selection}
    (h : List.Forall₂ (fun f f' => f.name = "node" ∧
      SelectionRestated schema g [.edges entities] f f') nodes nodes') :
    SelectionsRestated schema g [.fields e] (mergedFor e nodes) (mergedFor e nodes') := by
  refine firstOfKey_restated (selectionsRestated_iff.mpr (List.rel_flatMap h ?_))
  rintro f f' ⟨hname, hf⟩
  obtain ⟨_, _, _, hselection, hon⟩ := selectionRestated_iff.mp hf
  rw [hname] at hselection hon
  have hview : [View.fields e] ⊆ [View.edges entities].flatMap (View.below schema "node") :=
    List.cons_subset.mpr ⟨List.mem_append_left _ (List.mem_map_of_mem he), List.nil_subset _⟩
  exact selectionsRestated_iff.mp
    (selectionsRestated_mono hview _ _ (effective_restated e.name hselection hon))

end Merged

theorem placed_parts {node node' : Option Placed}
    (h : Option.Rel (PlacedStands schema g d d' (.target found)) node node') :
    OptionStands schema g d d' (.target found) (node.map Placed.members)
      (node'.map Placed.members) ∧ node'.map Placed.path = node.map Placed.path := by
  cases h with
  | none => exact ⟨.none, rfl⟩
  | some h =>
    obtain ⟨path, hmembers⟩ := h
    exact ⟨.some hmembers, rfl⟩

variable (hg : Substitution s g)

include hg

/-- The condition on the nodes of a connection over an entity. -/
theorem placed_agree {e : Entity} : ∀ {node node' : Option Placed},
    Option.Rel (PlacedStands s.schema g d d' (.target (.ok (.entity e)))) node node' →
    Agree (Condition.OptionAkin (Doc.Replaced g))
      (match node with
      | none => .ok none
      | some placed => s.requested (.node e) (some placed.members) placed.path :
        Result (Option Condition))
      (match node' with
      | none => .ok none
      | some placed => s.requested (.node e) (some placed.members) placed.path) := by
  intro node node' h
  cases h with
  | none => exact .ok .none
  | some h =>
    obtain ⟨path, hmembers⟩ := h
    exact asked_agree hg (OptionStands.ofEntity (.some hmembers)) path

theorem edgeCondition_agree {edge edge' : Option Placed}
    (h : Option.Rel (fun edge edge' => ∃ v, via = some v ∧
      PlacedStands s.schema g d d' (.edge v.relationship) edge edge') edge edge') :
    Agree (Condition.OptionAkin (Doc.Replaced g))
      (edgeCondition s via (s.viaProperties via) edge)
      (edgeCondition s via (s.viaProperties via) edge') := by
  cases h with
  | none => exact .ok .none
  | some h =>
    obtain ⟨v, rfl, hplaced⟩ := h
    obtain ⟨path, hmembers⟩ := hplaced
    simp only [edgeCondition, Setup.viaProperties, Option.bind_some]
    cases hproperties : s.schema.propertiesOf v.relationship with
    | none => exact .fault _
    | some properties =>
      refine asked_agree hg (.some (hmembers.recast rfl rfl fun key q hq => ?_)) path
      simpa only [Place.under, edgePlaces, hproperties] using hq

variable {below below' : FieldReader} (hbelow : ReadersAgree s.schema g below below')
  {e : Entity} {q q' : Asked}

include hbelow

theorem entityConnection_agree (he : e ∈ s.schema.entities.values)
    (hvia : ∀ v, via = some v → s.schema.targetOf v.relationship = .ok (.entity e))
    (h : AskedStands s.schema g d d' (.lookup (connectionPlace (.ok (.entity e)) via))
      [.connection [e]] q q') (path : String) :
    Agree (Connection.Akin Field.Akin) (s.entityConnection below e via q path)
      (s.entityConnection below' e via q' path) := by
  have hnode : NodeReadersAgree s.schema g [e] e.attributes.values
      (fun f here => below e (effective e.name f.selection f.on) here)
      (fun f here => below' e (effective e.name f.selection f.on) here) := by
    intro f f' here hf hname
    obtain ⟨_, _, _, hselection, hon⟩ := selectionRestated_iff.mp hf
    rw [hname] at hselection hon
    exact hbelow e he _ _ here (effective_restated e.name hselection hon)
  refine .bind (items_agree hnode h.selection path) fun items items' hitems => ?_
  refine .bind (connectionWhere_agree hvia h.args path) fun parts parts' hparts => ?_
  refine .bind (placed_agree hg hparts.node) fun node node' hnode => ?_
  refine .bind (edgeCondition_agree hg hparts.edge) fun edge edge' hedge => ?_
  rw [edgeNodeAttributes_akin hitems.1]
  refine .bind (guardedScope_agree hg he hitems.2 _ (List.rel_append hnode.toList hedge.toList)
    .read) fun _ _ hscope => ?_
  rw [connectionArrangement_same h.args]
  exact .skip _ fun _ => .ok (.intro _ _ hscope.1 hitems.1)

theorem compositeConnection_agree {c : Composite}
    (hvia : ∀ v, via = some v → s.schema.targetOf v.relationship = .ok (.composite c))
    (h : AskedStands s.schema g d d' (.lookup (connectionPlace (.ok (.composite c)) via))
      [.connection (entitiesOf s.schema (.ok (.composite c)))] q q') (path : String) :
    Agree (CompositeConnection.Akin Field.Akin) (s.compositeConnection below c via q path)
      (s.compositeConnection below' c via q' path) := by
  have hnode : NodeReadersAgree s.schema g (entitiesOf s.schema (.ok (.composite c))) []
      (fun _ _ => .ok []) (fun _ _ => .ok []) :=
    fun _ _ _ _ _ => .ok ⟨.nil, List.nil_subset _⟩
  refine .bind (items_agree hnode h.selection path) fun items items' hitems => ?_
  refine .bind (connectionWhere_agree hvia h.args path) fun parts parts' hparts => ?_
  obtain ⟨hmembers, hpath⟩ := placed_parts hparts.node
  simp only [hpath]
  refine .bind (narrow_agree hmembers _).told fun kept kept' hkept => ?_
  obtain ⟨hkept, hnarrow⟩ := hkept
  refine .bind (edgeCondition_agree hg hparts.edge) fun edge edge' hedge => ?_
  rw [connectionArrangement_same h.args]
  refine .skip _ fun arrangement => ?_
  rw [edgeFieldsOf_akin hitems.1]
  refine .bind (.mapM (S := ConnectionBranch.Akin Field.Akin) (forall₂_mem hkept) fun k k' hk => ?_)
    fun _ _ hbranches => .ok (.intro c _ _ _ hbranches hitems.1)
  obtain ⟨e, rest⟩ := k
  obtain ⟨e', rest'⟩ := k'
  obtain ⟨⟨rfl, hrest⟩, hmem, _⟩ := hk
  obtain ⟨he, hview⟩ := kept_viewed hnarrow hmem
  have hmerged := mergedFor_restated hview (nodeSelections_restated h.selection)
  refine .bind (hbelow e he _ _ _ hmerged) fun fields fields' hfields => ?_
  refine .bind (branch_agree hg he hrest hfields _ _) fun read read' hread => ?_
  obtain ⟨hread, hscope⟩ := hread
  have hfilter := Condition.allOf_akin (List.rel_append hscope.2.toList hedge.toList)
  cases hread with
  | intro sort page hscopes hfields =>
    cases hscopes with
    | intro entity relationship validations =>
      exact .ok (.intro _ (.intro _ _ (.intro _ _ _ ⟨_, hg.faithful, hfilter⟩) hfields))

/-- The place of the conditions of a lookup, and what its selections are about. -/
theorem readOf_agree {target : Target}
    (hknown : ∀ e, target = .entity e → e ∈ s.schema.entities.values)
    (h : AskedStands s.schema g d d' (.lookup (.target (.ok target)))
      ((entitiesOf s.schema (.ok target)).map .fields) q q') (path : String) :
    Agree (Lookup.Akin Field.Akin) (s.readOf below target via q path)
      (s.readOf below' target via q' path) := by
  cases target with
  | entity e =>
    exact .map (entityRead_agree hg hbelow (hknown e rfl) h path) fun _ _ hread => .read hread.1
  | composite c =>
    exact .map (compositeRead_agree hg hbelow h path) fun _ _ hread => .composite hread

theorem connectionOf_agree {target : Target}
    (hknown : ∀ e, target = .entity e → e ∈ s.schema.entities.values)
    (hvia : ∀ v, via = some v → s.schema.targetOf v.relationship = .ok target)
    (h : AskedStands s.schema g d d' (.lookup (connectionPlace (.ok target) via))
      [.connection (entitiesOf s.schema (.ok target))] q q') (path : String) :
    Agree (Lookup.Akin Field.Akin) (s.connectionOf below target via q path)
      (s.connectionOf below' target via q' path) := by
  cases target with
  | entity e =>
    exact .map (entityConnection_agree hg hbelow (hknown e rfl) hvia h path)
      fun _ _ hconnection => .connection hconnection
  | composite c =>
    exact .map (compositeConnection_agree hg hbelow hvia h path)
      fun _ _ hconnection => .compositeConnection hconnection

end Connections

section Fields

theorem fieldsAkin_of_forall {attributes : List Attribute} {fields fields' : List Field}
    (h : List.Forall₂ (fun f f' => FieldsAkin attributes [f] [f']) fields fields') :
    FieldsAkin attributes fields fields' := by
  induction h with
  | nil => exact ⟨.nil, List.nil_subset _⟩
  | @cons f f' rest rest' hf _ ih =>
    have happend : Field.attributes (f :: rest) =
        Field.attributes [f] ++ Field.attributes rest :=
      List.filterMap_append (l := [f])
    exact ⟨.cons (List.forall₂_cons.mp hf.1).1 ih.1,
      happend ▸ List.append_subset.mpr ⟨hf.2, ih.2⟩⟩

section Asked

variable {e : Entity} {f f' : Selection} {r : Relationship}

/-- The arguments of a field and what is selected under it. -/
theorem SelectionRestated.asked (h : SelectionRestated schema g [.fields e] f f') {p : Place}
    (hp : View.arguments schema f.name (.fields e) = [p]) {views : List View}
    (hviews : View.below schema f.name (.fields e) = views) :
    AskedStands schema g (Doc.membersHeight f.args) (Doc.membersHeight f'.args) p views
      (.ofField f) (.ofField f') := by
  obtain ⟨_, _, hargs, hselection, hon⟩ := selectionRestated_iff.mp h
  rw [List.flatMap_singleton] at hargs hselection hon
  subst hviews
  exact ⟨⟨hp ▸ hargs, Nat.le_refl _, Nat.le_refl _⟩, hselection, hon⟩

variable (schema) {name : String} (hname : name ≠ "__typename")
  (hattribute : e.attribute? name = none)

include hname hattribute

theorem listField_views (h : e.relationship? name = some r) :
    View.arguments schema name (.fields e) = [.lookup (.target (schema.targetOf r))] ∧
      View.below schema name (.fields e) =
        (entitiesOf schema (schema.targetOf r)).map .fields := by
  simp [View.arguments, View.below, hname, hattribute, h]

theorem connectionField_views (h : e.relationship? name = none)
    (hr : (Text.dropEnd? name "Connection").bind e.relationship? = some r) :
    View.arguments schema name (.fields e) = [.lookup (.connected r)] ∧
      View.below schema name (.fields e) =
        [.connection (entitiesOf schema (schema.targetOf r))] := by
  simp [View.arguments, View.below, hname, hattribute, h, hr]

theorem aggregateField_views (h : e.relationship? name = none)
    (hconnection : (Text.dropEnd? name "Connection").bind e.relationship? = none)
    (hr : (Text.dropEnd? name "Aggregate").bind e.relationship? = some r) :
    View.arguments schema name (.fields e) = [.lookup (.target (schema.targetOf r))] := by
  simp [View.arguments, hname, hattribute, h, hconnection, hr]

end Asked

variable (hg : Substitution s g)

include hg

theorem guardedAggregate_agree {e : Entity} (he : e ∈ s.schema.entities.values)
    (relationship : Option Relationship) {args args' : Doc.Members}
    (h : Stands s.schema g d d' (.lookup (.target (.ok (.entity e)))) (.record args)
      (.record args')) {items : List AggregateItem}
    (hitems : AggregateItem.nodeAttributesOf items ⊆ e.attributes.values) (path : String) :
    Agree Aggregate.Akin (guardedAggregate s e relationship args items path)
      (guardedAggregate s e relationship args' items path) := by
  refine .bind (where_agree h path) fun members members' hmembers => ?_
  refine .bind (asked_agree hg (OptionStands.ofEntity hmembers) _) fun asked asked' hasked => ?_
  exact .bind (guardedScope_agree hg he hitems _ hasked.toList .aggregate)
    fun _ _ hscope => .ok (.intro _ hscope.1)

theorem relatedAggregate_agree {via : Via} {found : Except SchemaFault Target}
    (hfound : s.schema.targetOf via.relationship = found) {args args' : Doc.Members}
    (h : Stands s.schema g d d' (.lookup (.target found)) (.record args) (.record args'))
    {views : List View} {selection selection' : List Selection}
    (hselection : SelectionsRestated s.schema g views selection selection') (path : String) :
    Agree Aggregate.Akin (relatedAggregate s via args selection path)
      (relatedAggregate s via args' selection' path) := by
  subst hfound
  refine .given _ fun target htarget => ?_
  replace htarget := ofSchema_ok htarget
  rw [htarget] at h
  cases target with
  | composite c => exact .fault _
  | entity e =>
    simp only [← aggregateItems_restated hselection]
    refine .given _ fun items hitems => ?_
    exact guardedAggregate_agree hg (target_known htarget) _ h (aggregateItems_within hitems) path

variable {below below' : FieldReader} (hbelow : ReadersAgree s.schema g below below')
  {e : Entity} {f f' : Selection}

include hbelow

theorem relationshipField_agree (hname : f.name ≠ "__typename")
    (hattribute : e.attribute? f.name = none)
    (h : SelectionRestated s.schema g [.fields e] f f') (path : String) :
    Agree (fun own own' => FieldsAkin e.attributes.values [own] [own'])
      (s.relationshipField below e path f) (s.relationshipField below' e path f') := by
  simp only [Setup.relationshipField, ← h.name, ← h.key]
  cases hr : e.relationship? f.name with
  | some r =>
    obtain ⟨harguments, hviews⟩ := listField_views s.schema hname hattribute hr
    refine .given _ fun target htarget => ?_
    replace htarget := ofSchema_ok htarget
    rw [htarget] at harguments hviews
    have hasked := h.asked harguments hviews
    refine .bind (readOf_agree hg hbelow ?_ hasked _) fun _ _ hl =>
      .ok ⟨.cons (.lookup _ hl) .nil, List.nil_subset _⟩
    rintro target rfl
    exact target_known htarget
  | none =>
    cases hconnection : (Text.dropEnd? f.name "Connection").bind e.relationship? with
    | some r =>
      obtain ⟨harguments, hviews⟩ := connectionField_views s.schema hname hattribute hr hconnection
      refine .given _ fun target htarget => ?_
      replace htarget := ofSchema_ok htarget
      rw [htarget] at hviews
      have hasked := h.asked harguments hviews
      refine .bind (connectionOf_agree hg hbelow ?_ ?_ hasked _) fun _ _ hl =>
        .ok ⟨.cons (.lookup _ hl) .nil, List.nil_subset _⟩
      · rintro target rfl
        exact target_known htarget
      · rintro v ⟨⟩
        exact htarget
    | none =>
      cases haggregate : (Text.dropEnd? f.name "Aggregate").bind e.relationship? with
      | some r =>
        have harguments :=
          aggregateField_views s.schema hname hattribute hr hconnection haggregate
        have hasked := h.asked harguments rfl
        exact .bind (relatedAggregate_agree hg rfl hasked.args hasked.selection _)
          fun _ _ ha => .ok ⟨.cons (.aggregate _ ha) .nil, List.nil_subset _⟩
      | none => exact .fault _

theorem field_agree (h : SelectionRestated s.schema g [.fields e] f f') (path : String) :
    Agree (fun own own' => FieldsAkin e.attributes.values [own] [own'])
      (s.field below e path f) (s.field below' e path f') := by
  simp only [Setup.field, ← h.name, ← h.key]
  split
  · exact .ok ⟨.cons (.typename _ _) .nil, List.nil_subset _⟩
  · rename_i hname
    split
    · rename_i a ha
      have hmem : [a] ⊆ e.attributes.values :=
        List.cons_subset.mpr ⟨attribute_known ha, List.nil_subset _⟩
      split
      · exact .ok ⟨.cons (.computed _ _) .nil, hmem⟩
      · exact .ok ⟨.cons (.stored _ _) .nil, hmem⟩
    · rename_i hattribute
      exact relationshipField_agree hg hbelow hname hattribute h path

omit hbelow in
/-- Selections are read alike, level by level. -/
theorem fieldsAt_agree (depth : Nat) :
    ReadersAgree s.schema g (s.fieldsAt depth) (s.fieldsAt depth) := by
  induction depth with
  | zero => exact fun _ _ _ _ _ _ => .ok ⟨.nil, List.nil_subset _⟩
  | succ depth ih =>
    intro e he selection selection' path h
    exact (Agree.mapM (selectionsRestated_iff.mp h) fun _ _ hf =>
      field_agree hg ih hf path).mono fun _ _ => fieldsAkin_of_forall

omit hbelow in
/-- What a request gives back. -/
theorem reader_agree {views : List View} {q q' : Asked} {p : Place}
    (h : AskedStands s.schema g d d' p views q q') :
    ReadersAgree s.schema g (s.reader q.selection q.on) (s.reader q'.selection q'.on) := by
  have hheight : heightOf q'.selection q'.on = heightOf q.selection q.on := by
    simp only [heightOf, listHeight_restated _ _ h.selection, fragmentsHeight_restated _ _ h.on]
  simp only [Setup.reader, hheight]
  exact fieldsAt_agree hg _

end Fields

end GraphSelection.Resolve
