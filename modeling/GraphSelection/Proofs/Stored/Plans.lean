import GraphSelection.Proofs.Permitted
import GraphSelection.Proofs.Resolved.Origins
import GraphSelection.Proofs.Stored.Sites

/-!
The sites of whole plans. Every part of a plan that is resolved from a request has sound sites, at
every depth: of its conditions and validations, of its order, of what it shows or reduces and of
what it writes.
-/
namespace GraphSelection.Plan

def SortTarget.sites : SortTarget → List Site
  | .node a => [⟨.sort, false, a⟩]
  | .edge a => [⟨.sort, true, a⟩]
  | .computed _ => []

def sortSites (sort : List SortKey) : List Site := sort.flatMap fun key => key.target.sites

def EdgeField.sites : EdgeField → List Site
  | .stored _ a => [⟨.projection, true, a⟩]
  | .typename _ _ => []

mutual
def AggregateItem.sites : AggregateItem → List Site
  | .measure _ m => m.sites
  | .group _ items => AggregateItem.sitesOf items
  | .typename _ _ => []
def AggregateItem.sitesOf : List AggregateItem → List Site
  | [] => []
  | item :: rest => item.sites ++ AggregateItem.sitesOf rest
end

def ConnectionItem.sites {φ : Type} : ConnectionItem φ → List Site
  | .edges _ _ (some (_, fields)) _ => fields.flatMap EdgeField.sites
  | .aggregate _ items => AggregateItem.sitesOf items
  | _ => []

def Read.sites {φ : Type} (r : Read φ) : List Site := r.scope.sites ++ sortSites r.sort

/-- What a composite is asked for is asked of its branches; its own sort keys only name columns. -/
def Lookup.sites {φ : Type} : Lookup φ → List Site
  | .read r => r.sites
  | .connection c => c.scope.sites ++ sortSites c.sort ++ c.items.flatMap ConnectionItem.sites
  | .composite c => c.branches.flatMap Read.sites
  | .compositeConnection c =>
      c.branches.flatMap fun b => b.read.sites ++ b.edgeFields.flatMap EdgeField.sites

/-- The site of a field that shows an attribute; lookups under a field have sites of their own. -/
def Field.sites : Field → List Site
  | .stored _ a => [⟨.projection, false, a⟩]
  | _ => []

def assignmentSites (onEdge : Bool) (written : List Assignment) : List Site :=
  written.map fun a => ⟨.assignment, onEdge, a.target⟩

def NewNode.sites {μ : Type} (n : NewNode μ) : List Site :=
  assignmentSites false n.assignments ++ Condition.sitesOf n.validations

/-- The sites of a change, without those of the changes inside it. -/
def Mutation.sites : Mutation → List Site
  | .create _ n edge => n.sites ++ assignmentSites true edge
  | .connect _ filter edge validations =>
      Condition.optionSites filter ++ assignmentSites true edge ++ Condition.sitesOf validations
  | .disconnect _ filter validations =>
      Condition.optionSites filter ++ Condition.sitesOf validations
  | .update _ filter before node edge after =>
      Condition.optionSites filter ++ Condition.sitesOf before ++ assignmentSites false node ++
        assignmentSites true edge ++ Condition.sitesOf after
  | .delete _ filter before _ => Condition.optionSites filter ++ Condition.sitesOf before

def Part.sites : Part → List Site
  | .field f => f.sites
  | .lookup l => l.sites
  | .aggregate a => a.scope.sites ++ AggregateItem.sitesOf a.items
  | .newNode _ n => n.sites
  | .change m => m.sites
  | .update u =>
      Condition.optionSites u.filter ++ Condition.sitesOf u.before ++
        assignmentSites false u.assignments ++ Condition.sitesOf u.after
  | .delete d => Condition.optionSites d.filter ++ Condition.sitesOf d.before

def Operation.sites (o : Operation) : List Site := o.parts.flatMap Part.sites

section Lists

variable {schema : Schema}

theorem allSound_aggregateItems {items : List AggregateItem} :
    AllSound schema (AggregateItem.sitesOf items) ↔ ∀ item ∈ items, AllSound schema item.sites := by
  induction items with
  | nil => simp [AggregateItem.sitesOf]
  | cons item rest ih => simp [AggregateItem.sitesOf, ih]

theorem allSound_sortSites {sort : List SortKey} :
    AllSound schema (sortSites sort) ↔ ∀ key ∈ sort, AllSound schema key.target.sites :=
  allSound_flatMap

theorem assignmentSites_node {e : Entity} (he : e ∈ schema.entities.values)
    {written : List Assignment} (h : WritesStored e.attribute? written) :
    AllSound schema (assignmentSites false written) := by
  intro t ht
  obtain ⟨a, ha, rfl⟩ := List.mem_map.mp ht
  obtain ⟨⟨name, hfound⟩, hstored⟩ := h a ha
  exact .node _ he (Entries.mem_values_of_get? hfound) hstored

theorem assignmentSites_edge {r : Relationship} {written : List Assignment}
    (h : WritesEdge schema r written) : AllSound schema (assignmentSites true written) := by
  intro t ht
  obtain ⟨a, ha, rfl⟩ := List.mem_map.mp ht
  rcases h with rfl | ⟨properties, hproperties, h⟩
  · exact absurd ha List.not_mem_nil
  · obtain ⟨⟨name, hfound⟩, hstored⟩ := h a ha
    exact .edge (Resolve.propertiesOf_known hproperties) (Entries.mem_values_of_get? hfound)
      fun _ => hstored

end Lists

section Changes

mutual
/-- A change among the parts of a change is that change or stands below it. -/
theorem Mutation.nests_of_mem_parts {e : Entity} {m : Mutation} (ms : List Mutation) :
    (m' : Mutation) → m' ∈ ms → .change m ∈ m'.parts → ∃ owner, Nests e ms owner m
  | .create link ⟨assignments, nested, validations⟩ edge, hmem, h => by
    rcases List.mem_cons.mp h with heq | h
    · cases heq
      exact ⟨e, .here hmem⟩
    · obtain ⟨owner, hnests⟩ := Mutation.nests_of_mem_partsOf link.target nested h
      exact ⟨owner, .inside hmem hnests⟩
  | .connect _ _ _ _, hmem, h => by
    rw [Mutation.parts, List.mem_singleton] at h
    cases h
    exact ⟨e, .here hmem⟩
  | .disconnect _ _ _, hmem, h => by
    rw [Mutation.parts, List.mem_singleton] at h
    cases h
    exact ⟨e, .here hmem⟩
  | .update _ _ _ _ _ _, hmem, h => by
    rw [Mutation.parts, List.mem_singleton] at h
    cases h
    exact ⟨e, .here hmem⟩
  | .delete link _ _ nested, hmem, h => by
    rcases List.mem_cons.mp h with heq | h
    · cases heq
      exact ⟨e, .here hmem⟩
    · obtain ⟨owner, hnests⟩ := Mutation.nests_of_mem_partsOf link.target nested h
      exact ⟨owner, .inside hmem hnests⟩
theorem Mutation.nests_of_mem_partsOf {m : Mutation} (e : Entity) :
    (ms : List Mutation) → .change m ∈ Mutation.partsOf ms → ∃ owner, Nests e ms owner m
  | [], h => absurd h List.not_mem_nil
  | m' :: rest, h => by
    rcases List.mem_append.mp h with h | h
    · exact Mutation.nests_of_mem_parts (m' :: rest) m' List.mem_cons_self h
    · obtain ⟨owner, hnests⟩ := Mutation.nests_of_mem_partsOf e rest h
      refine ⟨owner, ?_⟩
      cases hnests with
      | here h => exact .here (List.mem_cons_of_mem _ h)
      | inside h h' => exact .inside (List.mem_cons_of_mem _ h) h'
end

end Changes

end GraphSelection.Plan

namespace GraphSelection.Resolve

open GraphSelection Plan

section Sorting

/-- The key sorts by one of the attributes, or by a property of the edge where it has some. -/
def SortsIn (node : Entries Attribute) (properties : Option PropertySet) (key : SortKey) : Prop :=
  (∃ a ∈ node.values, key.target = SortTarget.ofAttribute a) ∨
    ∃ p ∈ properties, ∃ a ∈ p.attributes.values, key.target = .edge a

variable {schema : Schema} {node : Entries Attribute} {properties : Option PropertySet}

theorem nodeSort_in {members : Doc.Members} {path : String} {keys : List SortKey}
    (h : nodeSort node members path = .ok keys) : ∀ key ∈ keys, SortsIn node properties key := by
  intro key hkey
  obtain ⟨name, a, hfound, htarget⟩ := sortKeys_ok h key hkey
  exact .inl ⟨a, Entries.mem_values_of_get? hfound, htarget⟩

theorem listArrangement_in {s : Setup} {args : Doc.Members} {policy : Option PagePolicy}
    {isList : Bool} {path : String} {arrangement : Arrangement}
    (h : listArrangement s node args policy isList path = .ok arrangement) :
    ∀ key ∈ arrangement.sort, SortsIn node none key := by
  intro key hkey
  rcases listArrangement_ok h key hkey with hnode | ⟨hedges, _⟩
  · exact .inl hnode
  · cases hedges

theorem connectionSort_in {members : Doc.Members} {path : String} {keys : List SortKey}
    (h : connectionSort node (properties.map PropertySet.attributes) members path = .ok keys) :
    ∀ key ∈ keys, SortsIn node properties key := by
  unfold connectionSort at h
  split at h
  · simp only [except_bind_ok, except_pure_ok] at h
    obtain ⟨parts, hparts, rfl⟩ := h
    intro key hkey
    obtain ⟨part, hpart, hmem⟩ := List.mem_flatten.mp hkey
    obtain ⟨⟨scope, inner⟩, _, hentry⟩ := mem_of_mapM_ok hparts part hpart
    simp only [except_bind_ok] at hentry
    obtain ⟨inner', _, hentry⟩ := hentry
    split at hentry
    · exact nodeSort_in hentry key hmem
    · cases properties with
      | none => cases hentry
      | some p =>
        obtain ⟨name, a, hfound, htarget⟩ := sortKeys_ok hentry key hmem
        exact .inr ⟨p, rfl, a, Entries.mem_values_of_get? hfound, htarget⟩
  · exact nodeSort_in h

theorem connectionArrangement_in {s : Setup} {args : Doc.Members} {policy : Option PagePolicy}
    {path : String} {arrangement : Arrangement}
    (h : connectionArrangement s node (properties.map PropertySet.attributes) args policy path =
      .ok arrangement) : ∀ key ∈ arrangement.sort, SortsIn node properties key := by
  simp only [connectionArrangement, except_bind_ok, except_pure_ok] at h
  obtain ⟨items, _, keys, hkeys, requested, _, skip, _, rfl⟩ := h
  intro key hkey
  obtain ⟨part, hpart, hmem⟩ := List.mem_flatten.mp hkey
  obtain ⟨⟨index, item⟩, _, hitem⟩ := mem_of_mapM_ok hkeys part hpart
  simp only [except_bind_ok] at hitem
  obtain ⟨members, _, hsort⟩ := hitem
  exact connectionSort_in hsort key hmem

theorem forMember_in {e : Entity} {key key' : SortKey} (hkey : SortsIn node properties key)
    (h : key.forMember e = .ok key') : SortsIn e.attributes properties key' := by
  unfold SortKey.forMember at h
  split at h
  · rename_i a htarget
    cases h
    rcases hkey with ⟨a', _, htarget'⟩ | ⟨p, hp, a', ha', htarget'⟩
    · rw [htarget] at htarget'
      unfold SortTarget.ofAttribute at htarget'
      split at htarget' <;> cases htarget'
    · rw [htarget] at htarget'
      exact .inr ⟨p, hp, a', ha', htarget'⟩
  · split at h
    · rename_i a hfound
      cases h
      exact .inl ⟨a, Entries.mem_values_of_get? hfound, rfl⟩
    · cases h

theorem SortsIn.sound {e : Entity} (he : e ∈ schema.entities.values)
    (hproperties : ∀ p ∈ properties, p ∈ schema.propertySets.values) {key : SortKey}
    (h : SortsIn e.attributes properties key) : AllSound schema key.target.sites := by
  rcases h with ⟨a, ha, htarget⟩ | ⟨p, hp, a, ha, htarget⟩
  · rw [htarget]
    unfold SortTarget.ofAttribute
    split
    · exact allSound_nil
    · rename_i hstored
      exact allSound_singleton.mpr (.node _ he ha (by simpa using hstored))
  · rw [htarget]
    exact allSound_singleton.mpr (.unchecked rfl (hproperties p hp) ha)

end Sorting

section Aggregates

variable {schema : Schema}

theorem attributeGroup_sound {find : String → Option Attribute}
    {make : Attribute → Reduction → Measure} (hfind : Measures schema find make)
    {name key path : String} {a : Attribute} (hfound : find name = some a)
    {selection : List Selection} {item : AggregateItem}
    (h : attributeGroup key a selection make path = .ok item) : AllSound schema item.sites := by
  unfold attributeGroup at h
  split at h
  · simp only [except_bind_ok, except_throw_ok, false_and, exists_false] at h
  · rename_i hcomputed
    have hstored : a.isComputed = false := by simpa using hcomputed
    simp only [except_bind_ok, except_pure_ok] at h
    obtain ⟨items, hitems, rfl⟩ := h
    refine allSound_aggregateItems.mpr fun item hitem => ?_
    obtain ⟨f, _, hmade⟩ := mem_of_mapM_ok hitems item hitem
    unfold reductionItem at hmade
    split at hmade
    · cases hmade
      exact allSound_nil
    · split at hmade
      · cases hmade
      · simp only [except_bind_ok, except_pure_ok] at hmade
        obtain ⟨_, _, rfl⟩ := hmade
        exact hfind _ _ _ hfound hstored

theorem attributeGroups_sound {owner : String} {find : String → Option Attribute}
    {make : Attribute → Reduction → Measure} (hfind : Measures schema find make)
    {selection : List Selection} {typeName path : String} {items : List AggregateItem}
    (h : attributeGroups owner find make selection typeName path = .ok items) :
    AllSound schema (AggregateItem.sitesOf items) := by
  refine allSound_aggregateItems.mpr fun item hitem => ?_
  obtain ⟨f, _, hmade⟩ := mem_of_mapM_ok h item hitem
  split at hmade
  · cases hmade
    exact allSound_nil
  · split at hmade
    · cases hmade
    · rename_i a hfound
      exact attributeGroup_sound hfind hfound hmade

/-- What an aggregate selection may reduce is declared in the schema. -/
structure AggregateKeys.Declared (schema : Schema) (k : AggregateKeys) : Prop where
  target : k.target ∈ schema.entities.values
  properties : ∀ p ∈ k.properties, p ∈ schema.propertySets.values

theorem countItem_sites {isTraversed : Bool} {f : Selection} {item : AggregateItem}
    (h : countItem isTraversed f = .ok item) : item.sites = [] := by
  unfold countItem at h
  split at h
  · cases h
    rfl
  · split at h
    · cases h
      rfl
    · split at h
      · cases h
        rfl
      · cases h

theorem aggregateItem_sound {k : AggregateKeys} (hk : k.Declared schema) {path : String}
    {f : Selection} {item : AggregateItem} (h : k.item path f = .ok item) :
    AllSound schema item.sites := by
  unfold AggregateKeys.item at h
  simp only at h
  split at h
  · cases h
    exact allSound_nil
  · split at h
    · split at h
      · cases h
        exact allSound_nil
      · simp only [except_bind_ok, except_pure_ok] at h
        obtain ⟨counts, hcounts, rfl⟩ := h
        refine allSound_aggregateItems.mpr fun item hitem => ?_
        obtain ⟨f, _, hmade⟩ := mem_of_mapM_ok hcounts item hitem
        exact countItem_sites hmade ▸ allSound_nil
    · split at h
      · simp only [except_bind_ok, except_pure_ok] at h
        obtain ⟨items, hitems, rfl⟩ := h
        exact attributeGroups_sound (measures_node hk.target) hitems
      · split at h
        · split at h
          · cases h
          · rename_i properties hproperties
            simp only [except_bind_ok, except_pure_ok] at h
            obtain ⟨items, hitems, rfl⟩ := h
            exact attributeGroups_sound (measures_edge (hk.properties properties hproperties))
              hitems
        · split at h
          · split at h
            · cases h
            · rename_i a hfound
              exact attributeGroup_sound (measures_node hk.target) hfound h
          · cases h

theorem aggregateItems_sound {k : AggregateKeys} (hk : k.Declared schema)
    {selection : List Selection} {path : String} {items : List AggregateItem}
    (h : k.items selection path = .ok items) :
    AllSound schema (AggregateItem.sitesOf items) := by
  refine allSound_aggregateItems.mpr fun item hitem => ?_
  obtain ⟨f, _, hmade⟩ := mem_of_mapM_ok h item hitem
  exact aggregateItem_sound hk hmade

variable {s : Setup} {e : Entity}

theorem whereCondition_sound (he : e ∈ s.schema.entities.values) {members : Option Doc.Members}
    {path : String} {asked : Option Condition} (h : s.whereCondition e members path = .ok asked) :
    AllSound s.schema (Condition.sitesOf asked.toList) := by
  have hkeys : (Keys.node e).Declared s.schema := he
  exact allSound_toList.mpr (Setup.requested_sound hkeys h)

theorem guardedAggregate_sound (he : e ∈ s.schema.entities.values)
    {relationship : Option Relationship} {args : Doc.Members} {items : List AggregateItem}
    (hitems : AllSound s.schema (AggregateItem.sitesOf items)) {path : String} {a : Aggregate}
    (h : guardedAggregate s e relationship args items path = .ok a) :
    AllSound s.schema (Part.aggregate a).sites := by
  simp only [guardedAggregate, except_bind_ok, except_pure_ok] at h
  obtain ⟨members, _, asked, hasked, scope, hscope, rfl⟩ := h
  exact allSound_append.mpr
    ⟨guardedScope_sound he (whereCondition_sound he hasked) hscope, hitems⟩

theorem rootAggregate_sound (he : e ∈ s.schema.entities.values) {args : Doc.Members}
    {selection : List Selection} {path : String} {a : Aggregate}
    (h : rootAggregate s e args selection path = .ok a) :
    AllSound s.schema (Part.aggregate a).sites := by
  simp only [rootAggregate, except_bind_ok] at h
  obtain ⟨items, hitems, h⟩ := h
  exact guardedAggregate_sound he (aggregateItems_sound ⟨he, by simp⟩ hitems) h

theorem relatedAggregate_sound {via : Via} {args : Doc.Members} {selection : List Selection}
    {path : String} {a : Aggregate} (h : relatedAggregate s via args selection path = .ok a) :
    AllSound s.schema (Part.aggregate a).sites := by
  simp only [relatedAggregate, except_bind_ok] at h
  obtain ⟨target, htarget, h⟩ := h
  cases target with
  | composite c => simp only [except_throw_ok] at h
  | entity e =>
    simp only [except_bind_ok] at h
    obtain ⟨items, hitems, h⟩ := h
    have he : e ∈ s.schema.entities.values := target_known (ofSchema_ok htarget)
    exact guardedAggregate_sound he
      (aggregateItems_sound ⟨he, fun _ hp => propertiesOf_known hp⟩ hitems) h

end Aggregates

section Connections

variable {schema : Schema} {keys : ConnectionKeys} {nodeFields : NodeReader}

/-- What the entries of a connection are about is declared in the schema. -/
structure ConnectionKeys.Declared (schema : Schema) (k : ConnectionKeys) : Prop where
  properties : ∀ p ∈ k.properties, p ∈ schema.propertySets.values
  aggregate : ∀ a ∈ k.aggregate, a.Declared schema

theorem edgeField_sound {p : PropertySet} (hp : p ∈ schema.propertySets.values) {f : Selection}
    {found : EdgeField} (h : edgeField p f = .ok found) : AllSound schema found.sites := by
  unfold edgeField at h
  split at h
  · cases h
    exact allSound_nil
  · split at h
    · rename_i a hfound
      cases h
      exact allSound_singleton.mpr (.unchecked rfl hp (Entries.mem_values_of_get? hfound))
    · cases h

/-- The properties that have been read of an edge so far. -/
def EdgeParts.Sound (schema : Schema) (parts : EdgeParts) : Prop :=
  ∀ pair ∈ parts.properties, AllSound schema (pair.2.flatMap EdgeField.sites)

theorem edgePart_sound (hkeys : keys.Declared schema) {path : String} {parts parts' : EdgeParts}
    {f : Selection} (hparts : parts.Sound schema)
    (h : keys.edgePart nodeFields path parts f = .ok parts') : parts'.Sound schema := by
  unfold ConnectionKeys.edgePart at h
  simp only at h
  split at h
  · simp only [except_bind_ok, except_pure_ok] at h
    obtain ⟨_, _, rfl⟩ := h
    exact hparts
  · split at h
    · simp only [except_throw_ok] at h
    · rename_i p hp
      simp only [except_bind_ok, except_pure_ok] at h
      obtain ⟨fields, hfields, rfl⟩ := h
      rintro _ ⟨⟩
      refine allSound_flatMap.mpr fun found hfound => ?_
      obtain ⟨g, _, hmade⟩ := mem_of_mapM_ok hfields found hfound
      exact edgeField_sound (hkeys.properties p hp) hmade
  · simp only [except_pure_ok] at h
    subst h
    exact hparts
  · simp only [except_throw_ok] at h
  · simp only [except_throw_ok] at h

theorem connectionItem_sound (hkeys : keys.Declared schema) {path : String} {f : Selection}
    {item : ConnectionItem Field} (h : keys.item nodeFields path f = .ok item) :
    AllSound schema item.sites := by
  unfold ConnectionKeys.item at h
  simp only at h
  split at h
  · cases h
    exact allSound_nil
  · cases h
    exact allSound_nil
  · simp only [except_bind_ok, except_pure_ok] at h
    obtain ⟨_, _, rfl⟩ := h
    exact allSound_nil
  · simp only [except_bind_ok, except_pure_ok] at h
    obtain ⟨parts, hparts, rfl⟩ := h
    have hsound : parts.Sound schema :=
      foldlM_ok (fun parts => parts.Sound schema) nofun
        (fun _ _ _ _ hparts hstep => edgePart_sound hkeys hparts hstep) hparts
    cases hproperties : parts.properties with
    | none => exact allSound_nil
    | some pair => exact hsound pair hproperties
  · split at h
    · simp only [except_throw_ok] at h
    · rename_i aggregate haggregate
      simp only [except_bind_ok, except_pure_ok] at h
      obtain ⟨items, hitems, rfl⟩ := h
      exact aggregateItems_sound (hkeys.aggregate aggregate haggregate) hitems
  · simp only [except_throw_ok] at h

theorem connectionItems_sound (hkeys : keys.Declared schema) {selection : List Selection}
    {path : String} {items : List (ConnectionItem Field)}
    (h : keys.items nodeFields selection path = .ok items) :
    AllSound schema (items.flatMap ConnectionItem.sites) := by
  refine allSound_flatMap.mpr fun item hitem => ?_
  obtain ⟨f, _, hmade⟩ := mem_of_mapM_ok h item hitem
  exact connectionItem_sound hkeys hmade

/-- The properties that all edges of a connection read, each key once. -/
theorem edgeFieldsOf_sound {items : List (ConnectionItem Field)}
    (h : AllSound schema (items.flatMap ConnectionItem.sites)) :
    AllSound schema ((Setup.edgeFieldsOf items).flatMap EdgeField.sites) := by
  refine allSound_flatMap.mpr fun f hf => ?_
  obtain ⟨item, hitem, hf⟩ := List.mem_flatMap.mp (firstOf_subset EdgeField.key _ hf)
  have hsound := allSound_flatMap.mp h item hitem
  split at hf
  · exact allSound_flatMap.mp hsound f hf
  · exact absurd hf List.not_mem_nil

end Connections

end GraphSelection.Resolve

namespace GraphSelection.Resolve.Setup

open GraphSelection Plan

variable {s : Setup} {e : Entity}

section Lookups

variable {via : Option Via} {q : Asked} {path : String}

theorem viaProperties_declared {p : PropertySet} (hp : p ∈ s.viaProperties via) :
    p ∈ s.schema.propertySets.values := by
  obtain ⟨v, _, hfound⟩ := Option.bind_eq_some_iff.mp hp
  exact propertiesOf_known hfound

theorem readScope_sound (he : e ∈ s.schema.entities.values) {members : Option Doc.Members}
    {fields : List Field} {arrangement : Arrangement} {r : Read Field}
    (hsort : AllSound s.schema (sortSites arrangement.sort))
    (h : s.readScope e via members fields arrangement path = .ok r) :
    AllSound s.schema r.sites ∧ r.fields = fields := by
  simp only [readScope, except_bind_ok, except_pure_ok] at h
  obtain ⟨asked, hasked, scope, hscope, rfl⟩ := h
  exact ⟨allSound_append.mpr
    ⟨guardedScope_sound he (whereCondition_sound he hasked) hscope, hsort⟩, rfl⟩

theorem branch_sound (he : e ∈ s.schema.entities.values) {node : Entries Attribute}
    {properties : Option PropertySet}
    (hproperties : ∀ p ∈ properties, p ∈ s.schema.propertySets.values)
    {rest : Option Doc.Members} {fields : List Field} {sort : List SortKey}
    (hsort : ∀ key ∈ sort, SortsIn node properties key) {b : Read Field}
    (h : s.branch e via rest fields sort path = .ok b) :
    AllSound s.schema b.sites ∧ b.fields = withTypename e fields := by
  simp only [branch, except_bind_ok] at h
  obtain ⟨own, hown, h⟩ := h
  refine readScope_sound he (allSound_sortSites.mpr fun key hkey => ?_) h
  obtain ⟨key', hkey', hmember⟩ := mem_of_mapM_ok hown key hkey
  exact (forMember_in (hsort key' hkey') hmember).sound he hproperties

theorem edgeCondition_sound {edge : Option Placed} {found : Option Condition}
    (h : edgeCondition s via (s.viaProperties via) edge = .ok found) :
    AllSound s.schema (Condition.optionSites found) := by
  unfold edgeCondition at h
  split at h
  · cases h
    exact allSound_nil
  · split at h
    · cases h
    · rename_i properties hproperties
      have hkeys : (Keys.edge properties).Declared s.schema := viaProperties_declared hproperties
      exact requested_sound hkeys h

/-- A reader whose parts have sound sites at every depth. -/
def ReadsSound (s : Setup) (below : FieldReader) : Prop :=
  ∀ e selection path fields, e ∈ s.schema.entities.values →
    below e selection path = .ok fields →
    ∀ p ∈ Field.partsOf fields, AllSound s.schema p.sites

variable {below : FieldReader}

theorem withTypename_sound {fields : List Field}
    (h : ∀ p ∈ Field.partsOf fields, AllSound s.schema p.sites) :
    ∀ p ∈ Field.partsOf (withTypename e fields), AllSound s.schema p.sites := by
  unfold withTypename
  split
  · exact h
  · intro p hp
    obtain ⟨f, hf, hp⟩ := Field.mem_partsOf.mp hp
    rcases List.mem_append.mp hf with hf | hf
    · exact h p (Field.mem_partsOf.mpr ⟨f, hf, hp⟩)
    · rw [List.mem_singleton] at hf
      subst hf
      rw [Field.parts, List.mem_singleton] at hp
      exact hp ▸ allSound_nil

theorem entityRead_sound (hbelow : s.ReadsSound below) (he : e ∈ s.schema.entities.values)
    {r : Read Field} (h : s.entityRead below e via q path = .ok r) :
    ∀ p ∈ Field.lookupParts (.read r), AllSound s.schema p.sites := by
  simp only [entityRead, except_bind_ok] at h
  obtain ⟨fields, hfields, arrangement, harrangement, members, _, h⟩ := h
  have hsort : AllSound s.schema (sortSites arrangement.sort) :=
    allSound_sortSites.mpr fun key hkey =>
      (listArrangement_in harrangement key hkey).sound he (by simp)
  obtain ⟨hsites, rfl⟩ := readScope_sound he hsort h
  intro p hp
  rcases List.mem_cons.mp hp with rfl | hp
  · exact hsites
  · exact hbelow e _ _ _ he hfields p hp

theorem compositeRead_sound (hbelow : s.ReadsSound below) {c : Composite}
    {r : CompositeRead Field} (h : s.compositeRead below c via q path = .ok r) :
    ∀ p ∈ Field.lookupParts (.composite r), AllSound s.schema p.sites := by
  simp only [compositeRead, except_bind_ok, except_pure_ok] at h
  obtain ⟨members, _, kept, hkept, arrangement, harrangement, branches, hbranches, rfl⟩ := h
  have hbranch : ∀ b ∈ branches, AllSound s.schema b.sites ∧
      ∀ p ∈ Field.partsOf b.fields, AllSound s.schema p.sites := by
    intro b hb
    obtain ⟨⟨e, rest⟩, hmem, hmade⟩ := mem_of_mapM_ok hbranches b hb
    have he : e ∈ s.schema.entities.values := narrow_known hkept _ hmem
    simp only [except_bind_ok] at hmade
    obtain ⟨fields, hfields, hmade⟩ := hmade
    obtain ⟨hsites, hread⟩ := branch_sound he (by simp) (listArrangement_in harrangement) hmade
    exact ⟨hsites, hread ▸ withTypename_sound (hbelow e _ _ _ he hfields)⟩
  intro p hp
  rcases List.mem_cons.mp hp with rfl | hp
  · exact allSound_flatMap.mpr fun b hb => (hbranch b hb).1
  · obtain ⟨b, hb, hp⟩ := Field.mem_branchParts.mp hp
    exact (hbranch b hb).2 p hp

theorem entityConnection_sound (hbelow : s.ReadsSound below) (he : e ∈ s.schema.entities.values)
    {c : Connection Field} (h : s.entityConnection below e via q path = .ok c) :
    ∀ p ∈ Field.lookupParts (.connection c), AllSound s.schema p.sites := by
  simp only [entityConnection, except_bind_ok, except_pure_ok] at h
  obtain ⟨items, hitems, parts, _, node, hnode, edge, hedge, scope, hscope, arrangement,
    harrangement, rfl⟩ := h
  have hproperties : ∀ p ∈ s.viaProperties via, p ∈ s.schema.propertySets.values :=
    fun _ => viaProperties_declared
  have hasked : AllSound s.schema (Condition.sitesOf (node.toList ++ edge.toList)) := by
    have hsound : AllSound s.schema (Condition.sitesOf node.toList) := by
      have hkeys : (Keys.node e).Declared s.schema := he
      cases hparts : parts.node with
      | none =>
        simp only [hparts] at hnode
        cases hnode
        exact allSound_nil
      | some placed =>
        simp only [hparts] at hnode
        exact allSound_toList.mpr (requested_sound hkeys hnode)
    exact allSound_sitesOf.mpr (List.forall_mem_append.mpr ⟨allSound_sitesOf.mp hsound,
      allSound_sitesOf.mp (allSound_toList.mpr (edgeCondition_sound hedge))⟩)
  intro p hp
  rcases List.mem_cons.mp hp with rfl | hp
  · refine allSound_append.mpr ⟨allSound_append.mpr ⟨guardedScope_sound he hasked hscope, ?_⟩, ?_⟩
    · exact allSound_sortSites.mpr fun key hkey =>
        (connectionArrangement_in harrangement key hkey).sound he hproperties
    · refine connectionItems_sound ⟨hproperties, ?_⟩ hitems
      rintro _ ⟨⟩
      exact ⟨he, hproperties⟩
  · obtain ⟨key, nodeKey, fields, properties, typename, hitem, hp⟩ := Field.mem_itemParts.mp hp
    obtain ⟨_, _, f, _, here, hfields⟩ := items_node hitems hitem
    exact hbelow e _ _ _ he hfields p hp

theorem compositeConnection_sound (hbelow : s.ReadsSound below) {c : Composite}
    {r : CompositeConnection Field} (h : s.compositeConnection below c via q path = .ok r) :
    ∀ p ∈ Field.lookupParts (.compositeConnection r), AllSound s.schema p.sites := by
  obtain ⟨parts, items, branches, hparts, hitems, hbranches, rfl⟩ := compositeConnection_iff.mp h
  obtain ⟨asked, arrangement, _, _, hkept, hedge, harrangement, hsorted, _⟩ := hparts
  have hproperties : ∀ p ∈ s.viaProperties via, p ∈ s.schema.propertySets.values :=
    fun _ => viaProperties_declared
  have hfields := edgeFieldsOf_sound (connectionItems_sound ⟨hproperties, by simp⟩ hitems)
  have hbranch : ∀ b ∈ branches,
      AllSound s.schema (b.read.sites ++ b.edgeFields.flatMap EdgeField.sites) ∧
      ∀ p ∈ Field.partsOf b.read.fields, AllSound s.schema p.sites := by
    intro b hb
    obtain ⟨⟨e, rest⟩, hmem, hmade⟩ := mem_of_mapM_ok hbranches b hb
    have he : e ∈ s.schema.entities.values := narrow_known hkept _ hmem
    obtain ⟨fields, read, hread, hown, rfl⟩ := connectionBranch_ok.mp hmade
    rw [hsorted] at hown
    obtain ⟨hsites, hshown⟩ :=
      branch_sound he hproperties (connectionArrangement_in harrangement) hown
    obtain ⟨hscope, hsort⟩ := allSound_append.mp hsites
    obtain ⟨hfilter, hvalidations⟩ := allSound_append.mp hscope
    -- The condition on the edges is beside that of the branch.
    have hall := allOf_sound (allSound_toList.mpr hfilter) (edgeCondition_sound hedge)
    refine ⟨?_, ?_⟩
    · exact allSound_append.mpr
        ⟨allSound_append.mpr ⟨allSound_append.mpr ⟨hall, hvalidations⟩, hsort⟩, hfields⟩
    · simp only [hshown]
      exact withTypename_sound (hbelow e _ _ _ he hread)
  intro p hp
  rcases List.mem_cons.mp hp with rfl | hp
  · exact allSound_flatMap.mpr fun b hb => (hbranch b hb).1
  · obtain ⟨b, hb, hp⟩ := Field.mem_connectionBranchParts.mp hp
    exact (hbranch b hb).2 p hp

theorem readOf_sound (hbelow : s.ReadsSound below) {target : Target}
    (htarget : ∀ e, target = .entity e → e ∈ s.schema.entities.values) {l : Lookup Field}
    (h : s.readOf below target via q path = .ok l) :
    ∀ p ∈ Field.lookupParts l, AllSound s.schema p.sites := by
  cases target with
  | entity e =>
    obtain ⟨r, hr, rfl⟩ := (except_map_ok ..).mp h
    exact entityRead_sound hbelow (htarget e rfl) hr
  | composite c =>
    obtain ⟨r, hr, rfl⟩ := (except_map_ok ..).mp h
    exact compositeRead_sound hbelow hr

theorem connectionOf_sound (hbelow : s.ReadsSound below) {target : Target}
    (htarget : ∀ e, target = .entity e → e ∈ s.schema.entities.values) {l : Lookup Field}
    (h : s.connectionOf below target via q path = .ok l) :
    ∀ p ∈ Field.lookupParts l, AllSound s.schema p.sites := by
  cases target with
  | entity e =>
    obtain ⟨r, hr, rfl⟩ := (except_map_ok ..).mp h
    exact entityConnection_sound hbelow (htarget e rfl) hr
  | composite c =>
    obtain ⟨r, hr, rfl⟩ := (except_map_ok ..).mp h
    exact compositeConnection_sound hbelow hr

/-- A field over a relationship has no site of its own. -/
theorem underField_sound {f : Field} (hf : f.sites = []) {parts : List Part}
    (h : ∀ p ∈ parts, AllSound s.schema p.sites) :
    ∀ p ∈ .field f :: parts, AllSound s.schema p.sites :=
  List.forall_mem_cons.mpr ⟨(hf ▸ allSound_nil : AllSound s.schema f.sites), h⟩

theorem relationshipField_sound (hbelow : s.ReadsSound below) {f : Selection} {found : Field}
    (h : s.relationshipField below e path f = .ok found) :
    ∀ p ∈ found.parts, AllSound s.schema p.sites := by
  unfold relationshipField at h
  simp only at h
  split at h
  · simp only [except_bind_ok, except_pure_ok] at h
    obtain ⟨target, htarget, l, hl, rfl⟩ := h
    exact underField_sound rfl (readOf_sound hbelow (related_known htarget) hl)
  · split at h
    · simp only [except_bind_ok, except_pure_ok] at h
      obtain ⟨target, htarget, l, hl, rfl⟩ := h
      exact underField_sound rfl (connectionOf_sound hbelow (related_known htarget) hl)
    · split at h
      · simp only [except_bind_ok, except_pure_ok] at h
        obtain ⟨a, ha, rfl⟩ := h
        exact underField_sound rfl (List.forall_mem_singleton.mpr (relatedAggregate_sound ha))
      · simp only [except_throw_ok] at h

/-- A computed attribute of a node is shown by its statement. -/
theorem field_sound (hbelow : s.ReadsSound below) (he : e ∈ s.schema.entities.values)
    {f : Selection} {found : Field} (h : s.field below e path f = .ok found) :
    ∀ p ∈ found.parts, AllSound s.schema p.sites := by
  unfold field at h
  split at h
  · cases h
    exact List.forall_mem_singleton.mpr allSound_nil
  · split at h
    · rename_i a hfound
      cases h
      split
      · exact List.forall_mem_singleton.mpr allSound_nil
      · rename_i hstored
        exact List.forall_mem_singleton.mpr (allSound_singleton.mpr
          (.node _ he (Entries.mem_values_of_get? hfound) (by simpa using hstored)))
    · exact relationshipField_sound hbelow h

/-- The induction is on the depth of the reader. -/
theorem readsSound_fieldsAt (s : Setup) (depth : Nat) : s.ReadsSound (s.fieldsAt depth) := by
  induction depth with
  | zero =>
    intro e selection path fields _ h
    cases h
    exact fun _ hp => absurd hp List.not_mem_nil
  | succ depth ih =>
    intro e selection path fields he h p hp
    obtain ⟨f, hf, hp⟩ := Field.mem_partsOf.mp hp
    obtain ⟨selected, _, hfield⟩ := mem_of_mapM_ok h f hf
    exact field_sound ih he hfield p hp

theorem returnedFields_sound (he : e ∈ s.schema.entities.values) {fields : List Field}
    (h : s.returnedFields e q path = .ok fields) :
    ∀ p ∈ Field.partsOf fields, AllSound s.schema p.sites :=
  readsSound_fieldsAt s _ e _ _ _ he h

end Lookups

section Changes

variable {owner : Entity} {r : Relationship} {item : Placed} {m : Mutation} {q : Asked}
  {path : String}

theorem linkPart_sound {l : Link} (hl : l.target ∈ s.schema.entities.values)
    {properties : Option PropertySet}
    (hproperties : ∀ p ∈ properties, p ∈ s.schema.propertySets.values) {entry : String × Doc}
    {cs : List Condition} (h : s.linkPart l properties path entry = .ok cs) :
    AllSound s.schema (Condition.sitesOf cs) := by
  obtain ⟨key, value⟩ := entry
  unfold linkPart at h
  simp only at h
  split at h
  · simp only [except_pure_ok] at h
    subst h
    exact allSound_nil
  · simp only [except_bind_ok, except_pure_ok] at h
    obtain ⟨keys, hread, members, _, found, hfound, rfl⟩ := h
    have hkeys : keys.Declared s.schema := by
      split at hread
      · cases hread
        exact hl
      · cases hread
        exact hproperties _ rfl
      · cases hread
      · cases hread
    exact allSound_toList.mpr (requested_sound hkeys hfound)

theorem linkFilter_sound {l : Link} (hl : l.target ∈ s.schema.entities.values)
    {properties : Option PropertySet}
    (hproperties : ∀ p ∈ properties, p ∈ s.schema.propertySets.values) {action : Action}
    {filter : Option Condition} (h : s.linkFilter l properties item action = .ok filter) :
    AllSound s.schema (Condition.optionSites filter) := by
  simp only [linkFilter, except_bind_ok, except_pure_ok] at h
  obtain ⟨members, _, parts, hparts, rules, hrules, rfl⟩ := h
  refine allOf_sound (allSound_flatten fun part hpart => ?_) (guardFilter_sound hl hrules)
  obtain ⟨entry, _, hentry⟩ := mem_of_mapM_ok hparts part hpart
  exact linkPart_sound hl hproperties hentry

/-- What a change asks is known by what it was made of, what it writes by what is permitted. -/
theorem change_sound (hmade : s.Makes m) (hguards : s.GuardsChange m)
    (hpermitted : m.Permitted s.schema owner) : AllSound s.schema m.sites := by
  have hlinked : ∀ {r : Relationship}, ∀ p ∈ s.schema.propertiesOf r,
      p ∈ s.schema.propertySets.values := fun _ => propertiesOf_known
  cases hmade with
  | create h =>
    simp only [nestedCreate, except_bind_ok, except_pure_ok] at h
    obtain ⟨l, hl, members, _, n, hn, linked, hlinked, _, _, edge, _, rfl⟩ := h
    obtain ⟨hknown, own, added, hown, hadded, hall⟩ := hguards
    have hboth : n.validations ++ linked = own ++ added := hall
    have hvalidations : AllSound s.schema (Condition.sitesOf (n.validations ++ linked)) := by
      rw [hboth]
      exact allSound_sitesOf.mpr (List.forall_mem_append.mpr
        ⟨allSound_sitesOf.mp (guardValidations_sound hknown hown),
          allSound_sitesOf.mp (guardValidations_sound hknown hadded)⟩)
    exact allSound_append.mpr ⟨allSound_append.mpr
      ⟨assignmentSites_node hknown hpermitted.node, hvalidations⟩,
      assignmentSites_edge hpermitted.edge⟩
  | connect h =>
    simp only [nestedConnect, except_bind_ok, except_pure_ok] at h
    obtain ⟨l, hl, filter, hfilter, validations, _, _, _, edge, _, rfl⟩ := h
    obtain ⟨hknown, _, hvalidations⟩ := hguards
    exact allSound_append.mpr ⟨allSound_append.mpr
      ⟨linkFilter_sound hknown (by simp) hfilter, assignmentSites_edge hpermitted.edge⟩,
      guardValidations_sound hknown hvalidations⟩
  | disconnect h =>
    simp only [nestedDisconnect, except_bind_ok, except_pure_ok] at h
    obtain ⟨l, hl, filter, hfilter, validations, _, rfl⟩ := h
    obtain ⟨hknown, _, hvalidations⟩ := hguards
    exact allSound_append.mpr ⟨linkFilter_sound hknown hlinked hfilter,
      guardValidations_sound hknown hvalidations⟩
  | update h =>
    simp only [nestedUpdate, except_bind_ok, except_pure_ok] at h
    obtain ⟨l, hl, filter, hfilter, _, _, _, _, node, _, _, _, edge, _, before, _, after, _,
      rfl⟩ := h
    obtain ⟨hknown, _, hbefore, hafter⟩ := hguards
    exact allSound_append.mpr ⟨allSound_append.mpr ⟨allSound_append.mpr ⟨allSound_append.mpr
      ⟨linkFilter_sound hknown hlinked hfilter, guardValidations_sound hknown hbefore⟩,
      assignmentSites_node hknown hpermitted.node⟩, assignmentSites_edge hpermitted.edge⟩,
      guardValidations_sound hknown hafter⟩
  | delete h =>
    simp only [nestedDelete, except_bind_ok, except_pure_ok] at h
    obtain ⟨l, hl, filter, hfilter, before, _, nested, _, rfl⟩ := h
    obtain ⟨hknown, _, hbefore⟩ := hguards
    exact allSound_append.mpr ⟨linkFilter_sound hknown hlinked hfilter,
      guardValidations_sound hknown hbefore⟩

theorem create_sound (he : e ∈ s.schema.entities.values) {c : Create}
    (h : s.create e q path = .ok c) : ∀ n ∈ c.nodes, AllSound s.schema n.sites := by
  have hguards := create_ok he h
  simp only [create, except_bind_ok] at h
  obtain ⟨values, _, h⟩ := h
  split at h
  · simp only [except_bind_ok, except_throw_ok, false_and, exists_false] at h
  · simp only [except_bind_ok, except_pure_ok] at h
    obtain ⟨nodes, hnodes, fields, hfields, rfl⟩ := h
    intro n hn
    obtain ⟨⟨index, value⟩, _, hmade⟩ := mem_of_mapM_ok hnodes n hn
    simp only [except_bind_ok] at hmade
    obtain ⟨_, _, hmade⟩ := hmade
    have hown : s.Guards (.newNode e n) :=
      hguards _ (List.mem_append_left _ (List.mem_flatMap.mpr ⟨n, hn, List.mem_cons_self⟩))
    exact allSound_append.mpr
      ⟨assignmentSites_node he (newNodeAt_permitted s _ _ _ _ hmade).1,
        guardValidations_sound he hown.2⟩

theorem update_sound (he : e ∈ s.schema.entities.values) {u : Update}
    (h : s.update e q path = .ok u) : AllSound s.schema (Part.update u).sites := by
  simp only [update, except_bind_ok, except_pure_ok] at h
  obtain ⟨_, _, input, hinput, _, _, _, _, _, _, asked, hasked, rules, hrules, before, hbefore,
    after, hafter, _, _, rfl⟩ := h
  exact allSound_append.mpr ⟨allSound_append.mpr ⟨allSound_append.mpr
    ⟨allOf_sound (whereCondition_sound he hasked) (guardFilter_sound he hrules),
      guardValidations_sound he hbefore⟩, assignmentSites_node he (nodeInput_ok hinput).1⟩,
    guardValidations_sound he hafter⟩

theorem delete_sound (he : e ∈ s.schema.entities.values) {d : Delete}
    (h : s.delete e q path = .ok d) : AllSound s.schema (Part.delete d).sites := by
  simp only [delete, except_bind_ok, except_pure_ok] at h
  obtain ⟨_, _, asked, hasked, rules, hrules, before, hbefore, _, _, nested, _, rfl⟩ := h
  exact allSound_append.mpr
    ⟨allOf_sound (whereCondition_sound he hasked) (guardFilter_sound he hrules),
      guardValidations_sound he hbefore⟩

end Changes

section Operations

variable {r : Request} {o : Operation}

theorem nested_sound {ms : List Mutation} {parts : List Part}
    (hparts : Mutation.partsOf ms ⊆ parts) (hmade : s.AllMade parts)
    (hguards : ∀ p ∈ parts, s.Guards p) (hpermitted : AllPermitted s.schema e ms) :
    ∀ p ∈ Mutation.partsOf ms, AllSound s.schema p.sites := by
  intro p hp
  obtain ⟨m, rfl⟩ := Mutation.change_of_mem_partsOf ms p hp
  obtain ⟨owner, hnests⟩ := Mutation.nests_of_mem_partsOf e ms hp
  exact change_sound (hmade m (hparts hp)) (hguards _ (hparts hp)) (hpermitted owner m hnests)

theorem entityOperation_sound (he : e ∈ s.schema.entities.values) {kind : OperationKind}
    {q : Asked} {path : String} (h : s.entityOperation e kind q path = .ok o) :
    ∀ p ∈ o.parts, AllSound s.schema p.sites := by
  have hbelow : s.ReadsSound (s.reader q.selection q.on) := readsSound_fieldsAt s _
  have hknown : ∀ e', Target.entity e = .entity e' → e' ∈ s.schema.entities.values := by
    intro e' heq
    cases heq
    exact he
  intro p hp
  cases kind with
  | read =>
    obtain ⟨l, hl, rfl⟩ := (except_map_ok ..).mp h
    exact readOf_sound hbelow hknown hl p hp
  | connection =>
    obtain ⟨l, hl, rfl⟩ := (except_map_ok ..).mp h
    exact connectionOf_sound hbelow hknown hl p hp
  | aggregate =>
    obtain ⟨a, ha, rfl⟩ := (except_map_ok ..).mp h
    rw [Operation.parts, List.mem_singleton] at hp
    exact hp ▸ rootAggregate_sound he ha
  | create =>
    obtain ⟨c, hc, rfl⟩ := (except_map_ok ..).mp h
    obtain ⟨rfl, hfields⟩ := create_fields hc
    rcases List.mem_append.mp hp with hnode | hfield
    · obtain ⟨n, hn, hmem⟩ := List.mem_flatMap.mp hnode
      rcases List.mem_cons.mp hmem with rfl | hmem
      · exact create_sound he hc n hn
      · refine nested_sound (fun p hp => ?_) (create_made he hc) (create_ok he hc)
          (create_permitted hc n hn) p hmem
        exact List.mem_append_left _
          (List.mem_flatMap.mpr ⟨n, hn, List.mem_cons_of_mem _ hp⟩)
    · exact returnedFields_sound he hfields p hfield
  | update =>
    obtain ⟨u, hu, rfl⟩ := (except_map_ok ..).mp h
    obtain ⟨rfl, hfields⟩ := update_fields hu
    rcases List.mem_append.mp hp with hwritten | hfield
    · rcases List.mem_cons.mp hwritten with rfl | hmem
      · exact update_sound he hu
      · refine nested_sound (fun p hp => ?_) (update_made he hu) (update_ok he hu)
          (update_permitted hu) p hmem
        exact List.mem_append_left _ (List.mem_cons_of_mem _ hp)
    · exact returnedFields_sound he hfields p hfield
  | delete =>
    obtain ⟨d, hd, rfl⟩ := (except_map_ok ..).mp h
    rcases List.mem_cons.mp hp with rfl | hmem
    · exact delete_sound he hd
    · exact nested_sound (fun p hp => List.mem_cons_of_mem _ hp) (delete_made hd)
        (delete_ok he hd) (delete_permitted hd) p hmem

/-- Every site of a plan is sound, at every depth. -/
theorem operation_sound (h : s.operation r = .ok o) : AllSound s.schema o.sites := by
  refine allSound_flatMap.mpr ?_
  simp only [operation, except_bind_ok] at h
  obtain ⟨target, htarget, h⟩ := h
  cases target with
  | entity e => exact entityOperation_sound (target_known (ofSchema_ok htarget)) h
  | composite c =>
    have hbelow : s.ReadsSound (s.reader r.selection r.on) := readsSound_fieldsAt s _
    have hknown : ∀ e, Target.composite c = .entity e → e ∈ s.schema.entities.values := by simp
    simp only [compositeOperation] at h
    split at h
    · obtain ⟨l, hl, rfl⟩ := (except_map_ok ..).mp h
      exact readOf_sound hbelow hknown hl
    · obtain ⟨l, hl, rfl⟩ := (except_map_ok ..).mp h
      exact connectionOf_sound hbelow hknown hl
    · cases h
    · cases h
    · cases h
    · cases h

end Operations

end GraphSelection.Resolve.Setup
