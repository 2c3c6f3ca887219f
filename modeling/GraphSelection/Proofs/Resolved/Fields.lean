import GraphSelection.Proofs.Resolved.Guards
import GraphSelection.Resolve.Fields

/-!
Lookups that are resolved from a request. Every scope of a lookup is guarded by the rules for
reading, over the attributes that its selection reads, at every depth of the selection.
-/
namespace GraphSelection.Resolve

open GraphSelection Plan

section Sorting

/-- The key sorts by one of the attributes, or by an edge where there is one. -/
def SortsBy (attributes : Entries Attribute) (edges : Bool) (key : SortKey) : Prop :=
  (∃ a ∈ attributes.values, key.target = SortTarget.ofAttribute a) ∨
    (edges = true ∧ ∃ a, key.target = .edge a)

theorem sortKeys_ok {find : String → Option Attribute} {make : Attribute → SortTarget}
    {members : Doc.Members} {path : String} {keys : List SortKey}
    (h : sortKeys find make members path = .ok keys) :
    ∀ key ∈ keys, ∃ name a, find name = some a ∧ key.target = make a := by
  intro key hkey
  obtain ⟨⟨name, direction⟩, _, hentry⟩ := mem_of_mapM_ok h key hkey
  simp only at hentry
  split at hentry
  · cases hentry
  · rename_i a hfound
    simp only [except_bind_ok, except_pure_ok] at hentry
    obtain ⟨_, _, rfl⟩ := hentry
    exact ⟨name, a, hfound, rfl⟩

theorem nodeSort_ok {attributes : Entries Attribute} {members : Doc.Members} {path : String}
    {keys : List SortKey} (edges : Bool) (h : nodeSort attributes members path = .ok keys) :
    ∀ key ∈ keys, SortsBy attributes edges key := by
  intro key hkey
  obtain ⟨name, a, hfound, htarget⟩ := sortKeys_ok h key hkey
  exact .inl ⟨a, Entries.mem_values_of_get? hfound, htarget⟩

theorem listArrangement_ok {s : Setup} {attributes : Entries Attribute} {args : Doc.Members}
    {policy : Option PagePolicy} {isList : Bool} {path : String} {arrangement : Arrangement}
    (h : listArrangement s attributes args policy isList path = .ok arrangement) :
    ∀ key ∈ arrangement.sort, SortsBy attributes false key := by
  simp only [listArrangement, except_bind_ok, except_pure_ok] at h
  obtain ⟨options, _, sort, ⟨picked, _, hsort⟩, offset, _, requested, _, rfl⟩ := h
  intro key hkey
  cases picked with
  | none =>
    simp only [except_pure_ok] at hsort
    subst hsort
    simp at hkey
  | some found =>
    obtain ⟨value, here⟩ := found
    simp only [except_bind_ok, except_pure_ok] at hsort
    obtain ⟨keys, hkeys, rfl⟩ := hsort
    obtain ⟨part, hpart, hmem⟩ := List.mem_flatten.mp hkey
    obtain ⟨⟨index, item⟩, _, hitem⟩ := mem_of_mapM_ok hkeys part hpart
    simp only [except_bind_ok] at hitem
    obtain ⟨members, _, hnode⟩ := hitem
    exact nodeSort_ok false hnode key hmem

theorem connectionSort_ok {node : Entries Attribute} {edge : Option (Entries Attribute)}
    {members : Doc.Members} {path : String} {keys : List SortKey}
    (h : connectionSort node edge members path = .ok keys) :
    ∀ key ∈ keys, SortsBy node edge.isSome key := by
  unfold connectionSort at h
  split at h
  · simp only [except_bind_ok, except_pure_ok] at h
    obtain ⟨parts, hparts, rfl⟩ := h
    intro key hkey
    obtain ⟨part, hpart, hmem⟩ := List.mem_flatten.mp hkey
    obtain ⟨⟨scope, inner⟩, _, hentry⟩ := mem_of_mapM_ok hparts part hpart
    simp only [except_bind_ok] at hentry
    obtain ⟨inner', _, hentry⟩ := hentry
    split at hentry
    · exact nodeSort_ok _ hentry key hmem
    · cases edge with
      | none => cases hentry
      | some attributes =>
        obtain ⟨name, a, _, htarget⟩ := sortKeys_ok hentry key hmem
        exact .inr ⟨rfl, a, htarget⟩
  · exact nodeSort_ok _ h

theorem connectionArrangement_ok {s : Setup} {node : Entries Attribute}
    {edge : Option (Entries Attribute)} {args : Doc.Members} {policy : Option PagePolicy}
    {path : String} {arrangement : Arrangement}
    (h : connectionArrangement s node edge args policy path = .ok arrangement) :
    ∀ key ∈ arrangement.sort, SortsBy node edge.isSome key := by
  simp only [connectionArrangement, except_bind_ok, except_pure_ok] at h
  obtain ⟨items, _, keys, hkeys, requested, _, skip, _, rfl⟩ := h
  intro key hkey
  obtain ⟨part, hpart, hmem⟩ := List.mem_flatten.mp hkey
  obtain ⟨⟨index, item⟩, _, hitem⟩ := mem_of_mapM_ok hkeys part hpart
  simp only [except_bind_ok] at hitem
  obtain ⟨members, _, hsort⟩ := hitem
  exact connectionSort_ok hsort key hmem

theorem ofAttribute_fits {schema : Schema} {e : Entity} (he : e ∈ schema.entities.values)
    {a : Attribute} (ha : a ∈ e.attributes.values) (edges : Bool) :
    (SortTarget.ofAttribute a).Fits (Computes schema) edges := by
  unfold SortTarget.ofAttribute
  split
  · rename_i hcomputed
    exact ⟨hcomputed, e, he, ha⟩
  · trivial

theorem SortsBy.fits {schema : Schema} {e : Entity} (he : e ∈ schema.entities.values)
    {edges : Bool} {key : SortKey} (h : SortsBy e.attributes edges key) :
    key.target.Fits (Computes schema) edges := by
  rcases h with ⟨a, ha, htarget⟩ | ⟨hedges, a, htarget⟩
  · rw [htarget]
    exact ofAttribute_fits he ha edges
  · rw [htarget]
    exact hedges

/-- A constituent is sorted by its own attributes, or by the edge like the others. -/
theorem forMember_ok {attributes : Entries Attribute} {edges : Bool} {key key' : SortKey}
    {e : Entity} (hkey : SortsBy attributes edges key) (h : key.forMember e = .ok key') :
    SortsBy e.attributes edges key' := by
  unfold SortKey.forMember at h
  split at h
  · rename_i a htarget
    cases h
    rcases hkey with ⟨a', _, htarget'⟩ | ⟨hedges, _⟩
    · rw [htarget] at htarget'
      unfold SortTarget.ofAttribute at htarget'
      split at htarget' <;> cases htarget'
    · exact .inr ⟨hedges, a, rfl⟩
  · split at h
    · rename_i a hfound
      cases h
      exact .inl ⟨a, Entries.mem_values_of_get? hfound, rfl⟩
    · cases h

end Sorting

/-- A read whose scope is guarded over the attributes that it reads. -/
structure GuardedRead (s : Setup) (edges : Bool) (r : Read Field) : Prop where
  scope : Guarded s (Field.attributes r.fields) .read edges r.scope
  sort : ∀ key ∈ r.sort, key.target.Fits (Computes s.schema) edges

theorem GuardedRead.fits {s : Setup} {edges : Bool} {r : Read Field} (h : GuardedRead s edges r) :
    r.Fits (Computes s.schema) edges where
  scope := h.scope.fits
  sort := h.sort

namespace Setup

/-- Every scope of a lookup is guarded for reading. The attributes that an aggregate inside a
connection reduces are not among those that guard the connection. -/
def GuardsLookup (s : Setup) : Lookup Field → Prop
  | .read r => GuardedRead s false r
  | .connection c =>
      Guarded s (edgeNodeAttributes c.items) .read c.scope.relationship.isSome c.scope ∧
        ∀ key ∈ c.sort, key.target.Fits (Computes s.schema) c.scope.relationship.isSome
  | .composite c =>
      ∀ b ∈ c.branches, GuardedRead s false b ∧ b.scope.relationship = c.relationship ∧
        b.sort.length = c.sort.length
  | .compositeConnection c =>
      ∀ b ∈ c.branches, GuardedRead s c.relationship.isSome b.read ∧
        b.read.scope.relationship = c.relationship

def GuardsAggregate (s : Setup) (a : Aggregate) : Prop :=
  Guarded s (AggregateItem.nodeAttributesOf a.items) .aggregate false a.scope

/-- The fields, lookups and aggregates of a selection, each by itself. -/
def GuardsSelected (s : Setup) : Part → Prop
  | .field f => f.Fits (Computes s.schema)
  | .lookup l => s.GuardsLookup l
  | .aggregate a => s.GuardsAggregate a
  | _ => False

theorem guardsLookup_fits {s : Setup} {l : Lookup Field} (h : s.GuardsLookup l) :
    l.Fits (Computes s.schema) := by
  cases l with
  | read r => exact GuardedRead.fits h
  | connection c => exact ⟨h.1.fits, h.2⟩
  | composite c =>
    intro b hb
    obtain ⟨hread, hrelationship, hsort⟩ := h b hb
    exact ⟨hread.fits, hrelationship, hsort⟩
  | compositeConnection c =>
    intro b hb
    obtain ⟨hread, hrelationship⟩ := h b hb
    exact ⟨hread.fits, hrelationship⟩

theorem guardsSelected_fits {s : Setup} {p : Part} (h : s.GuardsSelected p) :
    p.Fits (Computes s.schema) := by
  cases p with
  | field f => exact h
  | lookup l => exact guardsLookup_fits h
  | aggregate a => exact Guarded.fits h
  | newNode e n => exact h.elim
  | change m => exact h.elim
  | update u => exact h.elim
  | delete d => exact h.elim

end Setup

section Aggregates

variable {s : Setup} {e : Entity}

theorem whereCondition_fits (he : e ∈ s.schema.entities.values) {members : Option Doc.Members}
    {path : String} {asked : Option Condition} (h : s.whereCondition e members path = .ok asked) :
    ∀ c ∈ asked.toList, c.Fits (Computes s.schema) false := by
  have hknown : (Keys.node e).Known s.schema := he
  intro c hc
  exact Setup.requested_fits hknown h c (Option.mem_toList.mp hc)

theorem guardedAggregate_ok (he : e ∈ s.schema.entities.values)
    {relationship : Option Relationship} {args : Doc.Members} {items : List AggregateItem}
    {path : String} {a : Aggregate}
    (h : guardedAggregate s e relationship args items path = .ok a) :
    s.GuardsAggregate a ∧ a.scope.relationship = relationship := by
  simp only [guardedAggregate, except_bind_ok, except_pure_ok] at h
  obtain ⟨members, _, asked, hasked, scope, hscope, rfl⟩ := h
  obtain ⟨hguarded, _, hrelationship⟩ :=
    guarded_guardedScope he (whereCondition_fits he hasked) hscope
  exact ⟨hguarded, hrelationship⟩

theorem rootAggregate_ok (he : e ∈ s.schema.entities.values) {args : Doc.Members}
    {selection : List Selection} {path : String} {a : Aggregate}
    (h : rootAggregate s e args selection path = .ok a) : s.GuardsAggregate a := by
  simp only [rootAggregate, except_bind_ok] at h
  obtain ⟨items, _, h⟩ := h
  exact (guardedAggregate_ok he h).1

theorem relatedAggregate_ok {via : Via} {args : Doc.Members} {selection : List Selection}
    {path : String} {a : Aggregate} (h : relatedAggregate s via args selection path = .ok a) :
    s.GuardsAggregate a ∧ a.scope.relationship = some via.relationship := by
  simp only [relatedAggregate, except_bind_ok] at h
  obtain ⟨target, htarget, h⟩ := h
  cases target with
  | composite c => simp only [except_throw_ok] at h
  | entity e =>
    simp only [except_bind_ok] at h
    obtain ⟨items, _, h⟩ := h
    exact guardedAggregate_ok (target_known (ofSchema_ok htarget)) h

end Aggregates

namespace Setup

variable {s : Setup} {e : Entity} {via : Option Via}

theorem readScope_ok (he : e ∈ s.schema.entities.values) {members : Option Doc.Members}
    {fields : List Field} {arrangement : Arrangement} {path : String} {r : Read Field}
    (h : s.readScope e via members fields arrangement path = .ok r) :
    Guarded s (Field.attributes fields) .read false r.scope ∧
      r.scope.relationship = via.map Via.relationship ∧ r.fields = fields ∧
      r.sort = arrangement.sort := by
  simp only [readScope, except_bind_ok, except_pure_ok] at h
  obtain ⟨asked, hasked, scope, hscope, rfl⟩ := h
  obtain ⟨hguarded, _, hrelationship⟩ :=
    guarded_guardedScope he (whereCondition_fits he hasked) hscope
  exact ⟨hguarded, hrelationship, rfl, rfl⟩

/-- A reader whose fields are guarded at every depth. -/
def Reads (s : Setup) (below : FieldReader) : Prop :=
  ∀ e selection path fields, e ∈ s.schema.entities.values →
    below e selection path = .ok fields → ∀ p ∈ Field.partsOf fields, s.GuardsSelected p

variable {below : FieldReader} {q : Asked} {path : String}

theorem entityRead_ok (hbelow : s.Reads below) (he : e ∈ s.schema.entities.values)
    {r : Read Field} (h : s.entityRead below e via q path = .ok r) :
    r.scope.relationship = via.map Via.relationship ∧
      ∀ p ∈ Field.lookupParts (.read r), s.GuardsSelected p := by
  simp only [entityRead, except_bind_ok] at h
  obtain ⟨fields, hfields, arrangement, harrangement, members, _, h⟩ := h
  have hsort : ∀ key ∈ arrangement.sort, key.target.Fits (Computes s.schema) false :=
    fun key hkey => (listArrangement_ok harrangement key hkey).fits he
  obtain ⟨hscope, hrelationship, rfl, hkeys⟩ := readScope_ok he h
  refine ⟨hrelationship, ?_⟩
  intro p hp
  rcases List.mem_cons.mp hp with rfl | hp
  · exact ⟨hscope, hkeys ▸ hsort⟩
  · exact hbelow e _ _ _ he hfields p hp

/-- The name of the type that is added to a branch is no part that needs a guard. -/
theorem withTypename_guards {fields : List Field}
    (h : ∀ p ∈ Field.partsOf fields, s.GuardsSelected p) :
    ∀ p ∈ Field.partsOf (withTypename e fields), s.GuardsSelected p := by
  unfold withTypename
  split
  · exact h
  · intro p hp
    obtain ⟨f, hf, hp⟩ := Field.mem_partsOf.mp hp
    rcases List.mem_append.mp hf with hf | hf
    · exact h p (Field.mem_partsOf.mpr ⟨f, hf, hp⟩)
    · rw [List.mem_singleton] at hf
      subst hf
      rw [Field.parts, List.mem_singleton] at hp
      exact hp ▸ trivial

theorem branch_ok (he : e ∈ s.schema.entities.values) {attributes : Entries Attribute}
    {edges : Bool} {rest : Option Doc.Members} {fields : List Field} {sort : List SortKey}
    (hsort : ∀ key ∈ sort, SortsBy attributes edges key) {b : Read Field}
    (h : s.branch e via rest fields sort path = .ok b) :
    Guarded s (Field.attributes b.fields) .read false b.scope ∧
      (∀ key ∈ b.sort, key.target.Fits (Computes s.schema) edges) ∧
      b.scope.relationship = via.map Via.relationship ∧
      b.fields = withTypename e fields ∧ b.sort.length = sort.length := by
  simp only [branch, except_bind_ok] at h
  obtain ⟨own, hown, h⟩ := h
  obtain ⟨hscope, hrelationship, hfields, rfl⟩ := readScope_ok he h
  refine ⟨hfields ▸ hscope, ?_, hrelationship, hfields, length_of_mapM_ok hown⟩
  intro key hkey
  obtain ⟨key', hkey', hmember⟩ := mem_of_mapM_ok hown key hkey
  exact (forMember_ok (hsort key' hkey') hmember).fits he

theorem compositeRead_ok (hbelow : s.Reads below) {c : Composite} {r : CompositeRead Field}
    (h : s.compositeRead below c via q path = .ok r) :
    r.relationship = via.map Via.relationship ∧
      ∀ p ∈ Field.lookupParts (.composite r), s.GuardsSelected p := by
  simp only [compositeRead, except_bind_ok, except_pure_ok] at h
  obtain ⟨members, _, kept, hkept, arrangement, harrangement, branches, hbranches, rfl⟩ := h
  have hbranch : ∀ b ∈ branches, GuardedRead s false b ∧
      b.scope.relationship = via.map Via.relationship ∧
      b.sort.length = arrangement.sort.length ∧
      ∀ p ∈ Field.partsOf b.fields, s.GuardsSelected p := by
    intro b hb
    obtain ⟨⟨e, rest⟩, hmem, hmade⟩ := mem_of_mapM_ok hbranches b hb
    have he : e ∈ s.schema.entities.values := narrow_known hkept _ hmem
    simp only [except_bind_ok] at hmade
    obtain ⟨fields, hfields, hmade⟩ := hmade
    obtain ⟨hscope, hsort, hrelationship, hread, hlength⟩ :=
      branch_ok he (listArrangement_ok harrangement) hmade
    refine ⟨⟨hscope, hsort⟩, hrelationship, hlength, ?_⟩
    rw [hread]
    exact withTypename_guards (hbelow e _ _ _ he hfields)
  refine ⟨rfl, ?_⟩
  intro p hp
  rcases List.mem_cons.mp hp with rfl | hp
  · intro b hb
    obtain ⟨hread, hrelationship, hlength, _⟩ := hbranch b hb
    exact ⟨hread, hrelationship, hlength⟩
  · obtain ⟨b, hb, hp⟩ := Field.mem_branchParts.mp hp
    exact (hbranch b hb).2.2.2 p hp

section Connections

variable {keys : ConnectionKeys} {nodeFields : NodeReader}

theorem edgePart_node {parts parts' : EdgeParts} {f : Selection} {key : String}
    {fields : List Field} (h : keys.edgePart nodeFields path parts f = .ok parts')
    (hnode : parts'.node = some (key, fields)) :
    parts.node = some (key, fields) ∨ ∃ here, nodeFields f here = .ok fields := by
  unfold ConnectionKeys.edgePart at h
  simp only at h
  split at h
  · simp only [except_bind_ok, except_pure_ok] at h
    obtain ⟨found, hfound, rfl⟩ := h
    cases hnode
    exact .inr ⟨_, hfound⟩
  · split at h
    · simp only [except_throw_ok] at h
    · simp only [except_bind_ok, except_pure_ok] at h
      obtain ⟨_, _, rfl⟩ := h
      exact .inl hnode
  · simp only [except_pure_ok] at h
    subst h
    exact .inl hnode
  · simp only [except_throw_ok] at h
  · simp only [except_throw_ok] at h

/-- What stands under the node of an edge has been read for a selection under the edges. -/
theorem items_node {selection : List Selection} {items : List (ConnectionItem Field)}
    (h : keys.items nodeFields selection path = .ok items) {key nodeKey : String}
    {fields : List Field} {properties : Option (String × List EdgeField)}
    {typename : Option (String × String)}
    (hitem : .edges key (some (nodeKey, fields)) properties typename ∈ items) :
    ∃ edges ∈ selection, ∃ f ∈ edges.selection, ∃ here, nodeFields f here = .ok fields := by
  obtain ⟨edges, hedges, hmade⟩ := mem_of_mapM_ok h _ hitem
  unfold ConnectionKeys.item at hmade
  simp only at hmade
  split at hmade
  · simp [pure, Except.pure] at hmade
  · simp [pure, Except.pure] at hmade
  · simp only [except_bind_ok, except_pure_ok] at hmade
    obtain ⟨_, _, hmade⟩ := hmade
    cases hmade
  · simp only [except_bind_ok, except_pure_ok] at hmade
    obtain ⟨parts, hparts, hmade⟩ := hmade
    have hread : ∀ key fields, parts.node = some (key, fields) →
        ∃ f ∈ edges.selection, ∃ here, nodeFields f here = .ok fields := by
      refine foldlM_ok (fun parts => ∀ key fields, parts.node = some (key, fields) →
        ∃ f ∈ edges.selection, ∃ here, nodeFields f here = .ok fields) (by simp) ?_ hparts
      intro parts f parts' hf ih hstep key fields hnode
      exact (edgePart_node hstep hnode).elim (ih key fields) fun hhere => ⟨f, hf, hhere⟩
    simp only [ConnectionItem.edges.injEq] at hmade
    exact ⟨edges, hedges, hread _ _ hmade.2.1⟩
  · split at hmade
    · simp only [except_throw_ok] at hmade
    · simp only [except_bind_ok, except_pure_ok] at hmade
      obtain ⟨_, _, hmade⟩ := hmade
      cases hmade
  · simp only [except_throw_ok] at hmade

theorem edgeCondition_fits {edge : Option Placed} {found : Option Condition}
    (h : edgeCondition s via (s.viaProperties via) edge = .ok found) :
    ∀ c ∈ found.toList, c.Fits (Computes s.schema) via.isSome := by
  intro c hc
  unfold edgeCondition at h
  split at h
  · cases h
    simp at hc
  · split at h
    · cases h
    · rename_i properties hproperties
      have hknown : (Keys.edge properties).Known s.schema := trivial
      cases via with
      | none => simp [viaProperties] at hproperties
      | some via => exact requested_fits hknown h c (Option.mem_toList.mp hc)

/-- Only a relationship has properties to sort by. -/
theorem connectionSorts {node : Entries Attribute} {args : Doc.Members}
    {policy : Option PagePolicy} {arrangement : Arrangement}
    (h : connectionArrangement s node ((s.viaProperties via).map PropertySet.attributes) args
      policy path = .ok arrangement) :
    ∀ key ∈ arrangement.sort, SortsBy node via.isSome key := by
  intro key hkey
  rcases connectionArrangement_ok h key hkey with hnode | ⟨hedges, hedge⟩
  · exact .inl hnode
  · cases via with
    | none => simp [viaProperties] at hedges
    | some via => exact .inr ⟨rfl, hedge⟩

theorem entityConnection_ok (hbelow : s.Reads below) (he : e ∈ s.schema.entities.values)
    {c : Connection Field} (h : s.entityConnection below e via q path = .ok c) :
    c.scope.relationship = via.map Via.relationship ∧
      ∀ p ∈ Field.lookupParts (.connection c), s.GuardsSelected p := by
  simp only [entityConnection, except_bind_ok, except_pure_ok] at h
  obtain ⟨items, hitems, parts, _, node, hnode, edge, hedge, scope, hscope, arrangement,
    harrangement, rfl⟩ := h
  have hasked : ∀ c ∈ node.toList ++ edge.toList, c.Fits (Computes s.schema) via.isSome := by
    intro c hc
    rcases List.mem_append.mp hc with hc | hc
    · have hknown : (Keys.node e).Known s.schema := he
      cases hparts : parts.node with
      | none =>
        simp only [hparts] at hnode
        cases hnode
        simp at hc
      | some placed =>
        simp only [hparts] at hnode
        exact (requested_fits hknown hnode c (Option.mem_toList.mp hc)).mono (fun _ h => h)
          (by simp [Keys.atEdge])
    · exact edgeCondition_fits hedge c hc
  obtain ⟨hguarded, _, hrelationship⟩ := guarded_guardedScope he hasked hscope
  have hisSome : scope.relationship.isSome = via.isSome := by
    rw [hrelationship, Option.isSome_map]
  refine ⟨hrelationship, ?_⟩
  intro p hp
  rcases List.mem_cons.mp hp with rfl | hp
  · refine ⟨?_, ?_⟩
    · rw [hisSome]
      exact hguarded
    · intro key hkey
      rw [hisSome]
      exact (connectionSorts harrangement key hkey).fits he
  · obtain ⟨key, nodeKey, fields, properties, typename, hitem, hp⟩ := Field.mem_itemParts.mp hp
    obtain ⟨_, _, f, _, here, hfields⟩ := items_node hitems hitem
    exact hbelow e _ _ _ he hfields p hp

/-- A branch of a connection over a composite, for one of the constituents that are kept. -/
def connectionBranch (s : Setup) (below : FieldReader) (via : Option Via) (path nodePath : String)
    (selection : List Selection) (edge : Option Condition) (sort : List SortKey)
    (edgeFields : List EdgeField) (kept : Kept) : Result (ConnectionBranch Field) := do
  let fields ← below kept.1 (mergedFor kept.1 (nodeSelections selection))
    (childPath path "edges.node")
  let read ← s.branch kept.1 via kept.2 fields sort nodePath
  let filter := Condition.allOf (read.scope.filter.toList ++ edge.toList)
  return { read := { read with scope := { read.scope with filter } }, edgeFields }

/-- What a connection over a composite is read from, beside its selection. -/
structure ConnectionParts where
  nodePath : String
  kept : List Kept
  edge : Option Condition
  sort : List SortKey
  page : Page

/-- The parts are those of the arguments. -/
def ReadsParts (s : Setup) (composite : Composite) (via : Option Via) (args : Doc.Members)
    (path : String) (parts : ConnectionParts) : Prop :=
  ∃ asked arrangement, connectionWhere args via.isSome path = .ok asked ∧
    parts.nodePath = (asked.node.map Placed.path).getD (childPath path "where") ∧
    narrow s.schema composite (asked.node.map Placed.members) parts.nodePath = .ok parts.kept ∧
    edgeCondition s via (s.viaProperties via) asked.edge = .ok parts.edge ∧
    connectionArrangement s composite.sharedAttributes
      ((s.viaProperties via).map PropertySet.attributes) args none path = .ok arrangement ∧
    parts.sort = arrangement.sort ∧ parts.page = arrangement.page

/-- A connection over a composite is made of its items and of a branch for each constituent that is
kept. -/
theorem compositeConnection_iff {composite : Composite} {c : CompositeConnection Field} :
    s.compositeConnection below composite via q path = .ok c ↔
      ∃ parts items branches, s.ReadsParts composite via q.args path parts ∧
        ConnectionKeys.items ⟨connectionNames composite.name via, s.viaProperties via, none⟩
          (fun _ _ => .ok []) q.selection path = .ok items ∧
        parts.kept.mapM (s.connectionBranch below via path parts.nodePath q.selection parts.edge
          parts.sort (edgeFieldsOf items)) = .ok branches ∧
        c = ⟨composite, via.map Via.relationship, branches, parts.sort, parts.page, items⟩ := by
  simp only [compositeConnection, except_bind_ok, except_pure_ok]
  constructor
  · rintro ⟨items, hitems, asked, hasked, kept, hkept, edge, hedge, arrangement, harrangement,
      branches, hbranches, rfl⟩
    exact ⟨⟨_, kept, edge, arrangement.sort, arrangement.page⟩, items, branches,
      ⟨asked, arrangement, hasked, rfl, hkept, hedge, harrangement, rfl, rfl⟩, hitems, hbranches,
      rfl⟩
  · rintro ⟨⟨_, kept, edge, _, _⟩, items, branches,
      ⟨asked, arrangement, hasked, rfl, hkept, hedge, harrangement, rfl, rfl⟩, hitems, hbranches,
      rfl⟩
    exact ⟨items, hitems, asked, hasked, kept, hkept, edge, hedge, arrangement, harrangement,
      branches, hbranches, rfl⟩

theorem connectionBranch_ok {nodePath : String} {selection : List Selection}
    {edge : Option Condition} {sort : List SortKey} {edgeFields : List EdgeField} {kept : Kept}
    {b : ConnectionBranch Field} :
    s.connectionBranch below via path nodePath selection edge sort edgeFields kept = .ok b ↔
      ∃ fields read, below kept.1 (mergedFor kept.1 (nodeSelections selection))
          (childPath path "edges.node") = .ok fields ∧
        s.branch kept.1 via kept.2 fields sort nodePath = .ok read ∧
        b = ⟨{ read with scope := { read.scope with
          filter := Condition.allOf (read.scope.filter.toList ++ edge.toList) } }, edgeFields⟩ := by
  simp only [connectionBranch, except_bind_ok, except_pure_ok]
  constructor
  · rintro ⟨fields, hfields, read, hread, rfl⟩
    exact ⟨fields, read, hfields, hread, rfl⟩
  · rintro ⟨fields, read, hfields, hread, rfl⟩
    exact ⟨fields, hfields, read, hread, rfl⟩

theorem compositeConnection_ok (hbelow : s.Reads below) {c : Composite}
    {r : CompositeConnection Field} (h : s.compositeConnection below c via q path = .ok r) :
    r.relationship = via.map Via.relationship ∧
      ∀ p ∈ Field.lookupParts (.compositeConnection r), s.GuardsSelected p := by
  obtain ⟨parts, items, branches, hparts, _, hbranches, rfl⟩ := compositeConnection_iff.mp h
  obtain ⟨asked, arrangement, _, _, hkept, hedge, harrangement, hsorted, _⟩ := hparts
  have hbranch : ∀ b ∈ branches, GuardedRead s via.isSome b.read ∧
      b.read.scope.relationship = via.map Via.relationship ∧
      ∀ p ∈ Field.partsOf b.read.fields, s.GuardsSelected p := by
    intro b hb
    obtain ⟨⟨e, rest⟩, hmem, hmade⟩ := mem_of_mapM_ok hbranches b hb
    have he : e ∈ s.schema.entities.values := narrow_known hkept _ hmem
    obtain ⟨fields, read, hfields, hread, rfl⟩ := connectionBranch_ok.mp hmade
    rw [hsorted] at hread
    obtain ⟨hscope, hsort, hrelationship, hshown, _⟩ :=
      branch_ok he (connectionSorts harrangement) hread
    -- The condition on the edges comes after the rules of the branch.
    have hfilter := hscope.filter.and (by simp) (edgeCondition_fits hedge)
    refine ⟨⟨⟨hscope.known, hfilter, hscope.validations⟩, hsort⟩, hrelationship, ?_⟩
    simp only [hshown]
    exact withTypename_guards (hbelow e _ _ _ he hfields)
  refine ⟨rfl, ?_⟩
  intro p hp
  rcases List.mem_cons.mp hp with rfl | hp
  · intro b hb
    obtain ⟨hread, hrelationship, _⟩ := hbranch b hb
    have hisSome : (via.map Via.relationship).isSome = via.isSome := Option.isSome_map
    exact ⟨hisSome ▸ hread, hrelationship⟩
  · obtain ⟨b, hb, hp⟩ := Field.mem_connectionBranchParts.mp hp
    exact (hbranch b hb).2.2 p hp

end Connections

section Selections

theorem readOf_ok (hbelow : s.Reads below) {target : Target}
    (htarget : ∀ e, target = .entity e → e ∈ s.schema.entities.values) {l : Lookup Field}
    (h : s.readOf below target via q path = .ok l) :
    l.relationship? = via.map Via.relationship ∧
      ∀ p ∈ Field.lookupParts l, s.GuardsSelected p := by
  cases target with
  | entity e =>
    obtain ⟨r, hr, rfl⟩ := (except_map_ok ..).mp h
    exact entityRead_ok hbelow (htarget e rfl) hr
  | composite c =>
    obtain ⟨r, hr, rfl⟩ := (except_map_ok ..).mp h
    exact compositeRead_ok hbelow hr

theorem connectionOf_ok (hbelow : s.Reads below) {target : Target}
    (htarget : ∀ e, target = .entity e → e ∈ s.schema.entities.values) {l : Lookup Field}
    (h : s.connectionOf below target via q path = .ok l) :
    l.relationship? = via.map Via.relationship ∧
      ∀ p ∈ Field.lookupParts l, s.GuardsSelected p := by
  cases target with
  | entity e =>
    obtain ⟨r, hr, rfl⟩ := (except_map_ok ..).mp h
    exact entityConnection_ok hbelow (htarget e rfl) hr
  | composite c =>
    obtain ⟨r, hr, rfl⟩ := (except_map_ok ..).mp h
    exact compositeConnection_ok hbelow hr

/-- A lookup under a field is reached over a relationship. -/
theorem lookupField_guards {key : String} {relationship : Relationship} {l : Lookup Field}
    (hrelationship : l.relationship? = some relationship)
    (hparts : ∀ p ∈ Field.lookupParts l, s.GuardsSelected p) :
    ∀ p ∈ (Field.lookup key l).parts, s.GuardsSelected p := by
  intro p hp
  rcases List.mem_cons.mp hp with rfl | hp
  · change l.relationship?.isSome = true
    rw [hrelationship]
    rfl
  · exact hparts p hp

theorem related_known {r : Relationship} {target : Target}
    (h : ofSchema (s.schema.targetOf r) = .ok target) :
    ∀ e, target = .entity e → e ∈ s.schema.entities.values :=
  fun _ he => target_known (ofSchema_ok (he ▸ h))

theorem relationshipField_ok (hbelow : s.Reads below) {f : Selection} {found : Field}
    (h : s.relationshipField below e path f = .ok found) :
    ∀ p ∈ found.parts, s.GuardsSelected p := by
  unfold relationshipField at h
  simp only at h
  split at h
  · simp only [except_bind_ok, except_pure_ok] at h
    obtain ⟨target, htarget, l, hl, rfl⟩ := h
    obtain ⟨hrelationship, hparts⟩ := readOf_ok hbelow (related_known htarget) hl
    exact lookupField_guards hrelationship hparts
  · split at h
    · simp only [except_bind_ok, except_pure_ok] at h
      obtain ⟨target, htarget, l, hl, rfl⟩ := h
      obtain ⟨hrelationship, hparts⟩ := connectionOf_ok hbelow (related_known htarget) hl
      exact lookupField_guards hrelationship hparts
    · split at h
      · simp only [except_bind_ok, except_pure_ok] at h
        obtain ⟨a, ha, rfl⟩ := h
        obtain ⟨hguards, hrelationship⟩ := relatedAggregate_ok ha
        intro p hp
        rcases List.mem_cons.mp hp with rfl | hp
        · change a.scope.relationship.isSome = true
          rw [hrelationship]
          rfl
        · rw [List.mem_singleton] at hp
          exact hp ▸ hguards
      · simp only [except_throw_ok] at h

theorem field_ok (hbelow : s.Reads below) (he : e ∈ s.schema.entities.values) {f : Selection}
    {found : Field} (h : s.field below e path f = .ok found) :
    ∀ p ∈ found.parts, s.GuardsSelected p := by
  unfold field at h
  split at h
  · cases h
    simp [Field.parts, GuardsSelected, Field.Fits]
  · split at h
    · rename_i a hfound
      cases h
      split
      · rename_i hcomputed
        have ha : Computes s.schema a := ⟨hcomputed, e, he, Entries.mem_values_of_get? hfound⟩
        simp [Field.parts, GuardsSelected, Field.Fits, ha]
      · simp [Field.parts, GuardsSelected, Field.Fits]
    · exact relationshipField_ok hbelow h

/-- Selections of every depth are guarded. The induction is on the depth of the reader. -/
theorem reads_fieldsAt (s : Setup) (depth : Nat) : s.Reads (s.fieldsAt depth) := by
  induction depth with
  | zero =>
    intro e selection path fields _ h
    cases h
    simp [Field.partsOf]
  | succ depth ih =>
    intro e selection path fields he h p hp
    obtain ⟨f, hf, hp⟩ := Field.mem_partsOf.mp hp
    obtain ⟨selected, _, hfield⟩ := mem_of_mapM_ok h f hf
    exact field_ok ih he hfield p hp

end Selections

end Setup

end GraphSelection.Resolve
