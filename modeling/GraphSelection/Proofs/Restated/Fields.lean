import GraphSelection.Proofs.Resolved.Conditions
import GraphSelection.Proofs.Restated.Selections
import GraphSelection.Proofs.Restated.Substitutions

/-!
Fields and lookups of restated selections. Scopes are found under kindred conditions, and all else
of a lookup is read from names and from arguments that stay. The attributes that a selection reads
are attributes of its entity, so the rules on them are rules of the schema.
-/
namespace GraphSelection.Resolve

open GraphSelection Plan

variable {s : Setup} {schema : Schema} {g : Doc → Doc} {d d' : Nat}

theorem attribute_known {e : Entity} {name : String} {a : Attribute}
    (h : e.attribute? name = some a) : a ∈ e.attributes.values :=
  Entries.mem_values_of_get? h

section Aggregates

-- Aggregates reduce attributes of their own target.

variable {attributes : List Attribute} {find : String → Option Attribute}
  {make : Attribute → Reduction → Measure} {item : AggregateItem}

/-- Every reduction of the attribute stays among some attributes of the node. -/
def Within (attributes : List Attribute) (make : Attribute → Reduction → Measure)
    (a : Attribute) : Prop :=
  ∀ key f, (AggregateItem.measure key (make a f)).nodeAttributes ⊆ attributes

theorem nodeAttributesOf_subset {items : List AggregateItem}
    (h : ∀ item ∈ items, item.nodeAttributes ⊆ attributes) :
    AggregateItem.nodeAttributesOf items ⊆ attributes := by
  induction items with
  | nil => exact List.nil_subset _
  | cons item rest ih =>
    have hrest := ih fun own hown => h own (List.mem_cons_of_mem _ hown)
    exact List.append_subset.mpr ⟨h item List.mem_cons_self, hrest⟩

theorem reductionItem_within {a : Attribute} {path : String} {f : Selection}
    (hmake : Within attributes make a) (h : reductionItem a make path f = .ok item) :
    item.nodeAttributes ⊆ attributes := by
  unfold reductionItem at h
  split at h
  · cases h
    exact List.nil_subset _
  · split at h
    · cases h
    · simp only [except_bind_ok, except_pure_ok] at h
      obtain ⟨_, _, rfl⟩ := h
      exact hmake _ _

theorem attributeGroup_within {key : String} {a : Attribute} {selection : List Selection}
    {path : String} (hmake : Within attributes make a)
    (h : attributeGroup key a selection make path = .ok item) :
    item.nodeAttributes ⊆ attributes := by
  simp only [attributeGroup] at h
  split at h
  · cases h
  · simp only [except_bind_ok, except_pure_ok] at h
    obtain ⟨items, hitems, rfl⟩ := h
    refine nodeAttributesOf_subset fun own hown => ?_
    obtain ⟨f, _, hf⟩ := mem_of_mapM_ok hitems own hown
    exact reductionItem_within hmake hf

theorem attributeGroups_within {owner typeName path : String} {selection : List Selection}
    {items : List AggregateItem} (hmake : ∀ name a, find name = some a → Within attributes make a)
    (h : attributeGroups owner find make selection typeName path = .ok items) :
    AggregateItem.nodeAttributesOf items ⊆ attributes := by
  refine nodeAttributesOf_subset fun own hown => ?_
  obtain ⟨f, _, hf⟩ := mem_of_mapM_ok h own hown
  split at hf
  · cases hf
    exact List.nil_subset _
  · split at hf
    · cases hf
    · rename_i a hfind
      exact attributeGroup_within (hmake _ a hfind) hf

theorem within_node {e : Entity} {name : String} {a : Attribute} (h : e.attribute? name = some a) :
    Within e.attributes.values .node a := by
  intro key f
  exact List.cons_subset.mpr ⟨attribute_known h, List.nil_subset _⟩

theorem countItem_within {isTraversed : Bool} {f : Selection}
    (h : countItem isTraversed f = .ok item) : item.nodeAttributes ⊆ attributes := by
  unfold countItem at h
  split at h
  · cases h
    exact List.nil_subset _
  · split at h
    · cases h
      exact List.nil_subset _
    · split at h
      · cases h
        exact List.nil_subset _
      · cases h

theorem aggregateItem_within {k : AggregateKeys} {path : String} {f : Selection}
    (h : k.item path f = .ok item) : item.nodeAttributes ⊆ k.target.attributes.values := by
  simp only [AggregateKeys.item] at h
  split at h
  · cases h
    exact List.nil_subset _
  split at h
  · split at h
    · cases h
      exact List.nil_subset _
    · simp only [except_bind_ok, except_pure_ok] at h
      obtain ⟨counts, hcounts, rfl⟩ := h
      refine nodeAttributesOf_subset fun own hown => ?_
      obtain ⟨_, _, hcount⟩ := mem_of_mapM_ok hcounts own hown
      exact countItem_within hcount
  split at h
  · simp only [except_bind_ok, except_pure_ok] at h
    obtain ⟨items, hitems, rfl⟩ := h
    exact attributeGroups_within (fun _ _ hfind => within_node hfind) hitems
  split at h
  · split at h
    · cases h
    · simp only [except_bind_ok, except_pure_ok] at h
      obtain ⟨items, hitems, rfl⟩ := h
      exact attributeGroups_within (fun _ _ _ _ _ => List.nil_subset _) hitems
  split at h
  · split at h
    · cases h
    · rename_i a hfind
      exact attributeGroup_within (within_node hfind) h
  · cases h

theorem aggregateItems_within {k : AggregateKeys} {selection : List Selection} {path : String}
    {items : List AggregateItem} (h : k.items selection path = .ok items) :
    AggregateItem.nodeAttributesOf items ⊆ k.target.attributes.values := by
  refine nodeAttributesOf_subset fun own hown => ?_
  obtain ⟨f, _, hf⟩ := mem_of_mapM_ok h own hown
  exact aggregateItem_within hf

end Aggregates

section Readers

variable {e : Entity} {fields fields' : List Field}

/-- Kindred fields, of some attributes. -/
def FieldsAkin (attributes : List Attribute) (fields fields' : List Field) : Prop :=
  List.Forall₂ Field.Akin fields fields' ∧ Field.attributes fields ⊆ attributes

theorem Field.Akin.key {f f' : Field} (h : f.Akin f') : f'.key = f.key := by
  cases h <;> rfl

theorem Field.Akin.attr? {f f' : Field} (h : f.Akin f') : f'.attr? = f.attr? := by
  cases h <;> rfl

theorem attributes_akin (h : List.Forall₂ Field.Akin fields fields') :
    Field.attributes fields' = Field.attributes fields := by
  induction h with
  | nil => rfl
  | cons hf _ ih =>
    simp only [Field.attributes] at ih ⊢
    rw [List.filterMap_cons, List.filterMap_cons, Field.Akin.attr? hf, ih]

theorem any_akin (h : List.Forall₂ Field.Akin fields fields') (key : String) :
    (fields'.any (·.key == key)) = fields.any (·.key == key) := by
  induction h with
  | nil => rfl
  | cons hf _ ih => rw [List.any_cons, List.any_cons, ih, Field.Akin.key hf]

theorem FieldsAkin.withTypename {attributes : List Attribute}
    (h : FieldsAkin attributes fields fields') :
    FieldsAkin attributes (withTypename e fields) (withTypename e fields') := by
  unfold Resolve.withTypename
  rw [any_akin h.1]
  split
  · exact h
  · refine ⟨List.rel_append h.1 (.cons (.typename _ _) .nil), ?_⟩
    simpa only [Field.attributes, List.filterMap_append, List.filterMap_cons, Field.attr?,
      List.filterMap_nil, List.append_nil] using h.2

variable (schema g) in
/-- Readers that agree on what is selected of the entities of a schema. -/
def ReadersAgree (below below' : FieldReader) : Prop :=
  ∀ e ∈ schema.entities.values, ∀ selection selection' path,
    SelectionsRestated schema g [.fields e] selection selection' →
      Agree (FieldsAkin e.attributes.values) (below e selection path) (below' e selection' path)

end Readers

section Asking

variable (schema g d d') in
/-- Arguments in one place, and selections about the same entities. -/
structure AskedStands (p : Place) (views : List View) (q q' : Asked) : Prop where
  args : Stands schema g d d' p (.record q.args) (.record q'.args)
  selection : SelectionsRestated schema g views q.selection q'.selection
  on : FragmentsRestated schema g views q.on q'.on

variable {p : Place} {views : List View} {q q' : Asked}

theorem AskedStands.fieldsFor (h : AskedStands schema g d d' p views q q') {e : Entity}
    (he : .fields e ∈ views) :
    SelectionsRestated schema g [.fields e] (q.fieldsFor e) (q'.fieldsFor e) :=
  selectionsRestated_mono (List.cons_subset.mpr ⟨he, List.nil_subset _⟩) _ _
    (effective_restated e.name h.selection h.on)

variable {conditions : Place} {args args' : Doc.Members}

/-- Arguments other than `where` stay. -/
theorem get?_beside (h : Stands schema g d d' (.lookup conditions) (.record args) (.record args'))
    {name : String} (hname : name ≠ "where") : args'.get? name = args.get? name := by
  refine get?_fixed h rfl ?_
  simp only [Place.under, if_neg hname]
  exact List.mem_cons_self

theorem listArrangement_same
    (h : Stands schema g d d' (.lookup conditions) (.record args) (.record args')) (s : Setup)
    (attributes : Entries Attribute) (policy : Option PagePolicy) (isList : Bool) (path : String) :
    listArrangement s attributes args' policy isList path =
      listArrangement s attributes args policy isList path := by
  simp only [listArrangement, pickCount, pick, recordArg,
    get?_beside h (by decide : "options" ≠ "where"), get?_beside h (by decide : "sort" ≠ "where"),
    get?_beside h (by decide : "offset" ≠ "where"), get?_beside h (by decide : "limit" ≠ "where")]

theorem connectionArrangement_same
    (h : Stands schema g d d' (.lookup conditions) (.record args) (.record args')) (s : Setup)
    (node : Entries Attribute) (edge : Option (Entries Attribute)) (policy : Option PagePolicy)
    (path : String) :
    connectionArrangement s node edge args' policy path =
      connectionArrangement s node edge args policy path := by
  simp only [connectionArrangement, listArg, get?_beside h (by decide : "sort" ≠ "where"),
    get?_beside h (by decide : "first" ≠ "where"), get?_beside h (by decide : "after" ≠ "where")]

/-- The conditions of a lookup. -/
theorem where_agree {found : Except SchemaFault Target}
    (h : Stands schema g d d' (.lookup (.target found)) (.record args) (.record args'))
    (path : String) :
    Agree (OptionStands schema g d d' (.target found)) (recordArg args "where" path)
      (recordArg args' "where" path) :=
  recordArg_agree (q := .target found) h rfl List.mem_cons_self rfl path

end Asking

namespace Setup

section Lists

variable {below below' : FieldReader} {via : Option Via} {e : Entity} {q q' : Asked}

/-- Kindred reads, in the scopes of which the values are replaced. -/
def ReadsAkin (g : Doc → Doc) (r r' : Read Field) : Prop :=
  Read.Akin Field.Akin r r' ∧ ScopesAkin g r.scope r'.scope

theorem readScope_agree (hg : Substitution s g) (he : e ∈ s.schema.entities.values)
    {members members' : Option Doc.Members}
    (h : OptionStands s.schema g d d' (.object (.node e)) members members')
    {fields fields' : List Field} (hfields : FieldsAkin e.attributes.values fields fields')
    (arrangement : Arrangement) (path : String) :
    Agree (ReadsAkin g) (s.readScope e via members fields arrangement path)
      (s.readScope e via members' fields' arrangement path) := by
  refine .bind (asked_agree hg h _) fun asked asked' hasked => ?_
  rw [attributes_akin hfields.1]
  refine .bind (guardedScope_agree hg he hfields.2 _ hasked.toList .read) fun scope scope' h => ?_
  exact .ok ⟨.intro _ _ h.1 hfields.1, h⟩

theorem entityRead_agree (hg : Substitution s g) (hbelow : ReadersAgree s.schema g below below')
    (he : e ∈ s.schema.entities.values)
    (h : AskedStands s.schema g d d' (.lookup (.target (.ok (.entity e)))) [.fields e] q q')
    (path : String) :
    Agree (ReadsAkin g) (s.entityRead below e via q path) (s.entityRead below' e via q' path) := by
  refine .bind (hbelow e he _ _ path (h.fieldsFor List.mem_cons_self)) fun _ _ hfields => ?_
  rw [listArrangement_same h.args]
  refine .skip _ fun arrangement => .bind (where_agree h.args path) fun _ _ hmembers => ?_
  exact readScope_agree hg he (OptionStands.ofEntity hmembers) hfields arrangement path

theorem branch_agree (hg : Substitution s g) (he : e ∈ s.schema.entities.values)
    {rest rest' : Option Doc.Members}
    (h : OptionStands s.schema g d d' (.object (.node e)) rest rest')
    {fields fields' : List Field} (hfields : FieldsAkin e.attributes.values fields fields')
    (sort : List SortKey) (path : String) :
    Agree (ReadsAkin g) (s.branch e via rest fields sort path)
      (s.branch e via rest' fields' sort path) :=
  .skip _ fun _ => readScope_agree hg he h hfields.withTypename _ path

/-- A constituent that is kept is an entity of the schema, and it is viewed. -/
theorem kept_viewed {c : Composite} {members : Option Doc.Members} {path : String}
    {kept : List Kept} (h : narrow schema c members path = .ok kept) {k : Kept} (hk : k ∈ kept) :
    k.1 ∈ schema.entities.values ∧ k.1 ∈ entitiesOf schema (.ok (.composite c)) := by
  obtain ⟨entities, hentities, hamong⟩ := narrow_among h
  refine ⟨narrow_known h k hk, ?_⟩
  simp only [entitiesOf, Schema.members, hentities, Except.toOption, Option.getD_some]
  exact hamong k hk

theorem compositeRead_agree (hg : Substitution s g)
    (hbelow : ReadersAgree s.schema g below below') {c : Composite}
    (h : AskedStands s.schema g d d' (.lookup (.target (.ok (.composite c))))
      ((entitiesOf s.schema (.ok (.composite c))).map .fields) q q') (path : String) :
    Agree (CompositeRead.Akin Field.Akin) (s.compositeRead below c via q path)
      (s.compositeRead below' c via q' path) := by
  refine .bind (where_agree h.args path) fun _ _ hmembers => ?_
  refine .bind (narrow_agree hmembers _).told fun kept kept' hkept => ?_
  obtain ⟨hkept, hnarrow⟩ := hkept
  rw [listArrangement_same h.args]
  refine .skip _ fun arrangement => ?_
  refine .bind (.mapM (S := ReadsAkin g) (forall₂_mem hkept) fun k k' hk => ?_)
    fun _ _ hbranches => .ok (.intro c _ _ _ (hbranches.imp fun _ _ hr => hr.1))
  obtain ⟨e, rest⟩ := k
  obtain ⟨e', rest'⟩ := k'
  obtain ⟨⟨rfl, hrest⟩, hmem, _⟩ := hk
  obtain ⟨he, hview⟩ := kept_viewed hnarrow hmem
  refine .bind (hbelow e he _ _ path (h.fieldsFor (List.mem_map_of_mem hview))) fun _ _ h => ?_
  exact branch_agree hg he hrest h _ _

end Lists

end Setup

section Items

open Setup

variable {attributes : List Attribute} {entities : List Entity} {k : ConnectionKeys}
  {nodeFields nodeFields' : NodeReader} {f f' : Selection}

variable (schema g) in
/-- Readers that agree on what is selected under `node` of edges to some entities. -/
def NodeReadersAgree (entities : List Entity) (attributes : List Attribute)
    (nodeFields nodeFields' : NodeReader) : Prop :=
  ∀ f f' path, SelectionRestated schema g [.edges entities] f f' → f.name = "node" →
    Agree (FieldsAkin attributes) (nodeFields f path) (nodeFields' f' path)

structure PartsAkin (attributes : List Attribute) (parts parts' : EdgeParts) : Prop where
  node : NodeAkin Field.Akin parts.node parts'.node
  reads : ∀ key fields, parts.node = some (key, fields) → Field.attributes fields ⊆ attributes
  properties : parts.properties = parts'.properties
  typename : parts.typename = parts'.typename

theorem edgePart_agree
    (hnode : NodeReadersAgree schema g entities attributes nodeFields nodeFields')
    {parts parts' : EdgeParts} (hparts : PartsAkin attributes parts parts')
    (hf : SelectionRestated schema g [.edges entities] f f') (path : String) :
    Agree (PartsAkin attributes) (k.edgePart nodeFields path parts f)
      (k.edgePart nodeFields' path parts' f') := by
  have hfields := hnode f f' (childPath path f.key) hf
  simp only [ConnectionKeys.edgePart, ← hf.name, ← hf.key,
    ← fun properties => edgeFields_restated hf.selection properties]
  generalize f.name = name at hfields
  split
  · refine .bind (hfields rfl) fun _ _ h =>
      .ok ⟨.some _ h.1, ?_, hparts.properties, hparts.typename⟩
    rintro _ _ ⟨⟩
    exact h.2
  · split
    · exact .fault _
    · exact .skip _ fun _ => .ok ⟨hparts.node, hparts.reads, rfl, hparts.typename⟩
  · exact .ok ⟨hparts.node, hparts.reads, hparts.properties, rfl⟩
  · exact .fault _
  · exact .fault _

/-- Kindred items, the edges of which read some attributes of their nodes. -/
def ItemsAkin (attributes : List Attribute) (items items' : List (ConnectionItem Field)) : Prop :=
  List.Forall₂ (ConnectionItem.Akin Field.Akin) items items' ∧
    edgeNodeAttributes items ⊆ attributes

theorem edgeNodeAttributes_akin {items items' : List (ConnectionItem Field)}
    (h : List.Forall₂ (ConnectionItem.Akin Field.Akin) items items') :
    edgeNodeAttributes items' = edgeNodeAttributes items := by
  induction h with
  | nil => rfl
  | cons hitem _ ih =>
    simp only [edgeNodeAttributes, List.flatMap_cons] at ih ⊢
    rw [ih]
    cases hitem with
    | edges key properties typename hnode =>
      cases hnode with
      | none => rfl
      | some key hfields => simp only [attributes_akin hfields]
    | _ => rfl

/-- The properties of the edges are read the same. -/
theorem edgeFieldsOf_akin {items items' : List (ConnectionItem Field)}
    (h : List.Forall₂ (ConnectionItem.Akin Field.Akin) items items') :
    edgeFieldsOf items' = edgeFieldsOf items := by
  refine congrArg (List.foldl _ []) ?_
  induction h with
  | nil => rfl
  | cons hitem _ ih =>
    rw [List.flatMap_cons, List.flatMap_cons, ih]
    cases hitem with
    | edges key properties typename hnode => cases properties <;> rfl
    | _ => rfl

theorem itemsAkin_of_forall {items items' : List (ConnectionItem Field)}
    (h : List.Forall₂ (fun item item' => ItemsAkin attributes [item] [item']) items items') :
    ItemsAkin attributes items items' := by
  induction h with
  | nil => exact ⟨.nil, List.nil_subset _⟩
  | @cons item item' rest rest' hitem _ ih =>
    obtain ⟨hkin, hattributes⟩ := hitem
    refine ⟨.cons (List.forall₂_cons.mp hkin).1 ih.1, ?_⟩
    have happend : edgeNodeAttributes (item :: rest) =
        edgeNodeAttributes [item] ++ edgeNodeAttributes rest := by
      simp [edgeNodeAttributes]
    rw [happend]
    exact List.append_subset.mpr ⟨hattributes, ih.2⟩

theorem item_agree (hnode : NodeReadersAgree schema g entities attributes nodeFields nodeFields')
    (hf : SelectionRestated schema g [.connection entities] f f') (path : String) :
    Agree (fun item item' => ItemsAkin attributes [item] [item'])
      (k.item nodeFields path f) (k.item nodeFields' path f') := by
  have hselection := hf.selection
  simp only [ConnectionKeys.item, ← hf.name, ← hf.key,
    ← fun path => pageInfo_restated hselection path,
    ← fun keys path => aggregateItems_restated hselection keys path]
  generalize f.name = name at hselection
  split
  · exact .ok ⟨.cons (.totalCount _) .nil, List.nil_subset _⟩
  · exact .ok ⟨.cons (.typename _ _) .nil, List.nil_subset _⟩
  · exact .skip _ fun _ => .ok ⟨.cons (.pageInfo _ _) .nil, List.nil_subset _⟩
  · have hedges := selectionsRestated_iff.mp hselection
    refine .bind (.foldlM hedges (fun _ _ _ _ hparts hf => edgePart_agree hnode hparts hf _)
      (S := PartsAkin attributes) ⟨.none, (fun _ _ h => nomatch h), rfl, rfl⟩)
      fun parts parts' hparts => .ok ⟨.cons ?_ .nil, ?_⟩
    · rw [← hparts.properties, ← hparts.typename]
      exact .edges _ _ _ hparts.node
    · intro a ha
      cases hparts' : parts.node with
      | none => simp [edgeNodeAttributes, hparts'] at ha
      | some n =>
        simp only [edgeNodeAttributes, hparts', List.flatMap_cons, List.flatMap_nil,
          List.append_nil] at ha
        exact hparts.reads n.1 n.2 hparts' ha
  · split
    · exact .fault _
    · exact .skip _ fun _ => .ok ⟨.cons (.aggregate _ _) .nil, List.nil_subset _⟩
  · exact .fault _

theorem items_agree (hnode : NodeReadersAgree schema g entities attributes nodeFields nodeFields')
    {selection selection' : List Selection}
    (h : SelectionsRestated schema g [.connection entities] selection selection') (path : String) :
    Agree (ItemsAkin attributes) (k.items nodeFields selection path)
      (k.items nodeFields' selection' path) :=
  (Agree.mapM (selectionsRestated_iff.mp h) fun _ _ hf => item_agree hnode hf path).mono
    fun _ _ => itemsAkin_of_forall

end Items

end GraphSelection.Resolve
