import GraphSelection.Proofs.EdgeAnswers
import GraphSelection.Proofs.Spelled.Entries

/-!
Keys of the edges of a connection over one entity. The map of an edge has a place for the node, one
for the properties of the relationship and one for the name of the type, each under the response key
it is asked for. Of several selections for one place the last takes it, and nothing is shown under
the keys of the others. So every key is answered, with the fields that are selected under it, where
no place is asked for twice.
-/
namespace GraphSelection.Stage

/-- The title of a film under one key and the name of its type under another. -/
def twoNodes : Request :=
  { operation := .connection
    entity := "Film"
    selection :=
      [(Selection.leaf "edges").select
        [((Selection.leaf "node").withAlias "first").select [.leaf "title"],
         ((Selection.leaf "node").withAlias "second").select [.leaf "__typename"]]] }

/-- The title of a film, and the type of the edge. -/
def oneNode : Request :=
  { twoNodes with
    selection :=
      [(Selection.leaf "edges").select
        [((Selection.leaf "node").withAlias "first").select [.leaf "title"],
         .leaf "__typename"]] }

end GraphSelection.Stage

namespace GraphSelection.Resolve

open GraphSelection Plan

/-- What can be selected of an edge, in the order of its map. -/
def edgeNames : List String := ["node", "properties", "__typename"]

/-- For each place of an edge that is asked for, the selection that takes it. -/
def lastOfEach (selection : List Selection) : List Selection :=
  edgeNames.filterMap fun name => lastNamed name selection

/-- What a place holds is read for the selection that takes it, and stands under its key. -/
def HeldFor {α : Type} (reads : Selection → α → Prop) :
    Option Selection → Option (String × α) → Prop
  | none, held => held = none
  | some f, held => ∃ found, reads f found ∧ held = some (f.key, found)

section Places

variable {α : Type} {reads : Selection → α → Prop} {name : String} {selection : List Selection}
  {f : Selection} {held : Option (String × α)}

theorem heldFor_taken {found : α} (hname : f.name = name) (h : reads f found) :
    HeldFor reads (lastNamed name (selection ++ [f])) (some (f.key, found)) := by
  rw [lastNamed_concat, if_pos hname]
  exact ⟨found, h, rfl⟩

theorem heldFor_kept (hname : f.name ≠ name) (h : HeldFor reads (lastNamed name selection) held) :
    HeldFor reads (lastNamed name (selection ++ [f])) held := by
  rw [lastNamed_concat, if_neg hname]
  exact h

/-- Where a name does not repeat, its one selection is the last. -/
theorem lastNamed_of_nodup (hnodup : (selection.map Selection.name).Nodup) (hf : f ∈ selection) :
    lastNamed f.name selection = some f := by
  induction selection using List.reverseRecOn with
  | nil => exact absurd hf List.not_mem_nil
  | append_singleton selection last ih =>
    rw [List.map_append, List.nodup_append] at hnodup
    obtain ⟨hbefore, _, hother⟩ := hnodup
    rw [lastNamed_concat]
    rcases List.mem_append.mp hf with hf | hf
    · have hne : f.name ≠ last.name :=
        hother f.name (List.mem_map_of_mem hf) last.name List.mem_cons_self
      rw [if_neg hne.symm]
      exact ih hbefore hf
    · rw [List.mem_singleton.mp hf, if_pos rfl]

theorem lastNamed_mem (h : lastNamed name selection = some f) : f ∈ selection ∧ f.name = name := by
  have hf : f ∈ selection.filter (·.name == name) := List.mem_of_getLast? h
  obtain ⟨hmem, hname⟩ := List.mem_filter.mp hf
  exact ⟨hmem, by simpa using hname⟩

end Places

/-- Each place of an edge holds what is read for the last selection of it, and nothing but places is
selected. -/
structure EdgeParts.Hold (k : ConnectionKeys) (nodeFields : NodeReader) (path : String)
    (selection : List Selection) (parts : EdgeParts) : Prop where
  node : HeldFor (fun f fields => nodeFields f (childPath path f.key) = .ok fields)
    (lastNamed "node" selection) parts.node
  properties : HeldFor (fun f fields => ∃ properties, k.properties = some properties ∧
      f.selection.mapM (edgeField properties) = .ok fields)
    (lastNamed "properties" selection) parts.properties
  typename : HeldFor (fun _ name => name = k.names.edge)
    (lastNamed "__typename" selection) parts.typename
  known : ∀ f ∈ selection, f.name ∈ edgeNames

section Parts

variable {k : ConnectionKeys} {nodeFields : NodeReader} {path : String}

theorem edgeParts_hold {selection : List Selection} {parts : EdgeParts}
    (h : selection.foldlM (k.edgePart nodeFields path) {} = .ok parts) :
    parts.Hold k nodeFields path selection := by
  induction selection using List.reverseRecOn generalizing parts with
  | nil =>
    simp only [List.foldlM_nil, except_pure_ok] at h
    subst h
    exact ⟨rfl, rfl, rfl, fun f hf => absurd hf List.not_mem_nil⟩
  | append_singleton selection f ih =>
    simp only [List.foldlM_append, List.foldlM_cons, List.foldlM_nil, except_bind_ok,
      except_pure_ok] at h
    obtain ⟨before, hbefore, _, hlast, rfl⟩ := h
    obtain ⟨hnode, hproperties, htypename, hknown⟩ := ih hbefore
    have hplaces (hf : f.name ∈ edgeNames) : ∀ g ∈ selection ++ [f], g.name ∈ edgeNames := by
      intro g hg
      rcases List.mem_append.mp hg with hg | hg
      · exact hknown g hg
      · exact List.mem_singleton.mp hg ▸ hf
    unfold ConnectionKeys.edgePart at hlast
    simp only at hlast
    split at hlast
    · rename_i hname
      simp only [except_bind_ok, except_pure_ok] at hlast
      obtain ⟨fields, hfields, rfl⟩ := hlast
      exact ⟨heldFor_taken hname hfields, heldFor_kept (by simp [hname]) hproperties,
        heldFor_kept (by simp [hname]) htypename, hplaces (by simp [hname, edgeNames])⟩
    · rename_i hname
      split at hlast
      · simp only [except_throw_ok] at hlast
      · rename_i found hfound
        simp only [except_bind_ok, except_pure_ok] at hlast
        obtain ⟨fields, hfields, rfl⟩ := hlast
        exact ⟨heldFor_kept (by simp [hname]) hnode, heldFor_taken hname ⟨found, hfound, hfields⟩,
          heldFor_kept (by simp [hname]) htypename, hplaces (by simp [hname, edgeNames])⟩
    · rename_i hname
      simp only [except_pure_ok] at hlast
      subst hlast
      exact ⟨heldFor_kept (by simp [hname]) hnode, heldFor_kept (by simp [hname]) hproperties,
        heldFor_taken hname rfl, hplaces (by simp [hname, edgeNames])⟩
    · simp only [except_throw_ok] at hlast
    · simp only [except_throw_ok] at hlast

/-- An `edges` selection is read as an item whose places hold what is read for it. -/
theorem items_parts {selection : List Selection} {items : List (ConnectionItem Field)}
    (h : k.items nodeFields selection path = .ok items) {edges : Selection}
    (hedges : edges ∈ selection) (hname : edges.name = "edges") :
    ∃ parts : EdgeParts, parts.Hold k nodeFields (childPath path edges.key) edges.selection ∧
      .edges edges.key parts.node parts.properties parts.typename ∈ items := by
  obtain ⟨item, hitem, hread⟩ := ok_of_mapM_ok h edges hedges
  simp only [ConnectionKeys.item, hname, except_bind_ok, except_pure_ok] at hread
  obtain ⟨parts, hparts, rfl⟩ := hread
  exact ⟨parts, edgeParts_hold hparts, hitem⟩

end Parts

end GraphSelection.Resolve

namespace GraphSelection.Program

open GraphSelection Cypher Plan Resolve

/-- What is known about the edges of a connection: how they are read, and where they stand in the
program. -/
structure EdgeSite where
  setup : Setup
  depth : Nat
  entity : Entity
  via : Option Via
  path : String
  ctx : Context

/-- The entry of the map of an edge for one of its selections. It stands under the key of the
selection; a node is shown with the fields that are selected under this key, one item for each, and
so is the relationship. The calls that the items read from are among the clauses. -/
inductive EdgeSite.Answers (site : EdgeSite) (clauses : List Clause) :
    Selection → String × Expr → Prop
  | node {f : Selection} {fields : List Field} {items : List (MapItem Expr)}
      (hname : f.name = "node")
      (hfields : List.Forall₂
        (fun g found => site.setup.field (site.setup.fieldsAt (site.depth - 1)) site.entity
          (childPath site.path f.key) g = .ok found)
        (effective site.entity.name f.selection f.on) fields)
      (hitems : List.Forall₂ (ShowsField site.ctx clauses) fields items) :
      Answers site clauses f (f.key, .projection site.ctx.subject items)
  | properties {f : Selection} {edge : String} {fields : List EdgeField}
      (hname : f.name = "properties") (hedge : site.ctx.relationship = some edge)
      (hfields : List.Forall₂ (site.setup.ReadsProperty site.via) f.selection fields) :
      Answers site clauses f (f.key, .projection edge (fields.map (edgeItem edge)))
  | typename {f : Selection} (hname : f.name = "__typename") :
      Answers site clauses f
        (f.key, .string (connectionNames site.entity.name site.via).edge)

/-- An `edges` selection is a call over the collected edges, which collects a map for each. The map
has an entry for each place that is asked for, and answers the selection that takes the place; so
where no place is asked for twice it answers all selections. -/
def EdgeSite.Collects (site : EdgeSite) (l : EdgeList) (calls : List Clause)
    (entries : List (String × Expr)) (edges : Selection) : Prop :=
  ∃ result edge window nodeCalls shown, (edges.key, .var result) ∈ entries ∧
    .call [l.edges] (unpackEdge site.ctx l.edges edge ++ window ++ nodeCalls ++
      [.give (.apply "collect" [.map shown]) result]) ∈ calls ∧
    List.Forall₂ (site.Answers nodeCalls) (lastOfEach edges.selection) shown ∧
    (∀ f ∈ edges.selection, lastNamed f.name edges.selection = some f →
      ∃ entry ∈ shown, site.Answers nodeCalls f entry) ∧
    ((edges.selection.map Selection.name).Nodup →
      ∀ f ∈ edges.selection, ∃ entry ∈ shown, site.Answers nodeCalls f entry)

section Entries

variable {ctx : Context} {s t : Supply} {l : EdgeList} {sort : List SortKey}
  {items : List (ConnectionItem Field)} {calls : List Clause} {entries : List (String × Expr)}

/-- The first item is written before the others. -/
theorem entries_cons {item : ConnectionItem Field}
    (h : Field.entries ctx l sort (item :: items) s = .ok ((calls, entries), t)) :
    ∃ own entry u more others, Field.entries ctx l sort [item] s = .ok ((own, [entry]), u) ∧
      Field.entries ctx l sort items u = .ok ((more, others), t) ∧
      calls = own ++ more ∧ entries = entry :: others := by
  cases item with
  | edges key node properties typename =>
    simp only [Field.entries, bind_ok, pure_ok, Prod.mk.injEq] at h ⊢
    obtain ⟨result, u₁, hresult, edge, u₂, hedge, window, u₃, hwindow, own, u₄, hown, found, u₅,
      hfound, ⟨more, others⟩, u₆, hrest, ⟨rfl, rfl⟩, rfl⟩ := h
    exact ⟨_, _, u₅, more, others, ⟨result, u₁, hresult, edge, u₂, hedge, window, u₃, hwindow, own,
      u₄, hown, found, u₅, hfound, ([], []), u₅, ⟨rfl, rfl⟩, ⟨rfl, rfl⟩, rfl⟩, hrest, rfl, rfl⟩
  | aggregate key group =>
    simp only [Field.entries, bind_ok, pure_ok, Prod.mk.injEq] at h ⊢
    obtain ⟨own, u, hown, ⟨more, others⟩, _, hrest, ⟨rfl, rfl⟩, rfl⟩ := h
    exact ⟨_, _, u, more, others, ⟨own, u, hown, ([], []), u, ⟨rfl, rfl⟩, ⟨rfl, rfl⟩, rfl⟩,
      hrest, by rw [List.append_nil], rfl⟩
  | totalCount key =>
    simp only [Field.entries, bind_ok, pure_ok, Prod.mk.injEq] at h ⊢
    obtain ⟨⟨more, others⟩, _, hrest, ⟨rfl, rfl⟩, rfl⟩ := h
    exact ⟨[], _, s, more, others, ⟨([], []), s, ⟨rfl, rfl⟩, ⟨rfl, rfl⟩, rfl⟩, hrest, rfl, rfl⟩
  | pageInfo key fields =>
    simp only [Field.entries, bind_ok, pure_ok, Prod.mk.injEq] at h ⊢
    obtain ⟨⟨more, others⟩, _, hrest, ⟨rfl, rfl⟩, rfl⟩ := h
    exact ⟨[], _, s, more, others, ⟨([], []), s, ⟨rfl, rfl⟩, ⟨rfl, rfl⟩, rfl⟩, hrest, rfl, rfl⟩
  | typename key typeName =>
    simp only [Field.entries, bind_ok, pure_ok, Prod.mk.injEq] at h ⊢
    obtain ⟨⟨more, others⟩, _, hrest, ⟨rfl, rfl⟩, rfl⟩ := h
    exact ⟨[], _, s, more, others, ⟨([], []), s, ⟨rfl, rfl⟩, ⟨rfl, rfl⟩, rfl⟩, hrest, rfl, rfl⟩

/-- Each item is written as it would be alone. -/
theorem entries_mem (h : Field.entries ctx l sort items s = .ok ((calls, entries), t))
    {item : ConnectionItem Field} (hitem : item ∈ items) :
    ∃ u v own entry, Field.entries ctx l sort [item] u = .ok ((own, [entry]), v) ∧
      own ⊆ calls ∧ entry ∈ entries := by
  induction items generalizing s calls entries with
  | nil => exact absurd hitem List.not_mem_nil
  | cons first rest ih =>
    obtain ⟨own, entry, u, more, others, hfirst, hrest, rfl, rfl⟩ := entries_cons h
    rcases List.mem_cons.mp hitem with rfl | hitem
    · exact ⟨s, u, own, entry, hfirst, List.subset_append_left _ _, List.mem_cons_self⟩
    · obtain ⟨u, v, own', entry', hown, hsub, hentry⟩ := ih hrest hitem
      exact ⟨u, v, own', entry', hown, List.subset_append_of_subset_right _ hsub,
        List.mem_cons_of_mem _ hentry⟩

end Entries

section Collected

variable {site : EdgeSite} {selection : List Selection} {clauses : List Clause}

theorem lastOfEach_eq (selection : List Selection) :
    lastOfEach selection = (lastNamed "node" selection).toList ++
      (lastNamed "properties" selection).toList ++ (lastNamed "__typename" selection).toList := by
  unfold lastOfEach edgeNames
  simp only [List.filterMap_cons, List.filterMap_nil]
  cases lastNamed "node" selection <;> cases lastNamed "properties" selection <;>
    cases lastNamed "__typename" selection <;> rfl

theorem mem_lastOfEach {f : Selection} (hname : f.name ∈ edgeNames)
    (hlast : lastNamed f.name selection = some f) : f ∈ lastOfEach selection :=
  List.mem_filterMap.mpr ⟨f.name, hname, hlast⟩

/-- The node is shown for the selection that takes its place. -/
theorem nodeEntry_answers {node : Option (String × List Field)} {calls : List Clause}
    {entries : List (String × Expr)} {s t : Supply}
    (hheight : ∀ f ∈ selection,
      Selection.listHeight (effective site.entity.name f.selection f.on) ≤ site.depth)
    (hnode : HeldFor (fun f fields => site.setup.fieldsAt site.depth site.entity
        (effective site.entity.name f.selection f.on) (childPath site.path f.key) = .ok fields)
      (lastNamed "node" selection) node)
    (h : Field.nodeEntry site.ctx node s = .ok ((calls, entries), t)) :
    List.Forall₂ (site.Answers calls) (lastNamed "node" selection).toList entries := by
  cases hlast : lastNamed "node" selection with
  | none =>
    rw [hlast] at hnode
    obtain rfl : node = none := hnode
    simp only [Field.nodeEntry, pure_ok, Prod.mk.injEq] at h
    obtain ⟨⟨_, rfl⟩, _⟩ := h
    exact .nil
  | some f =>
    rw [hlast] at hnode
    obtain ⟨fields, hfields, rfl⟩ := hnode
    obtain ⟨hf, hname⟩ := lastNamed_mem hlast
    simp only [Field.nodeEntry, bind_ok, pure_ok, Prod.mk.injEq] at h
    obtain ⟨⟨own, items⟩, _, hitems, ⟨rfl, rfl⟩, _⟩ := h
    exact .cons
      (.node hname (fieldsAt_fields (hheight f hf) hfields) (items_showFields hitems)) .nil

/-- The relationship is shown for the selection that takes the place of the properties. -/
theorem propertyEntries_answer {properties : Option (String × List EdgeField)}
    {entries : List (String × Expr)}
    (h : (match properties with
      | none => pure []
      | some (key, fields) => do
          let e ← edgeProjection site.ctx fields
          pure [(key, e)] : Except Failure (List (String × Expr))) = .ok entries)
    (hproperties : HeldFor (fun f fields => ∃ properties,
        site.setup.viaProperties site.via = some properties ∧
        f.selection.mapM (edgeField properties) = .ok fields)
      (lastNamed "properties" selection) properties) :
    List.Forall₂ (site.Answers clauses) (lastNamed "properties" selection).toList entries := by
  cases hlast : lastNamed "properties" selection with
  | none =>
    rw [hlast] at hproperties
    obtain rfl : properties = none := hproperties
    cases h
    exact .nil
  | some f =>
    rw [hlast] at hproperties
    obtain ⟨fields, ⟨found, hfound, hfields⟩, rfl⟩ := hproperties
    simp only [edgeProjection, except_bind_ok, except_pure_ok] at h
    obtain ⟨_, ⟨edge, hedge, rfl⟩, rfl⟩ := h
    refine .cons (.properties (lastNamed_mem hlast).2 (Scoping.edge_ok hedge) ?_) .nil
    exact (forall₂_of_mapM_ok hfields).imp fun g shown hg => ⟨found, hfound, hg⟩

/-- The name of the type is shown for the selection that takes its place. -/
theorem typename_answers {typename : Option (String × String)}
    (h : HeldFor (fun _ name => name = (connectionNames site.entity.name site.via).edge)
      (lastNamed "__typename" selection) typename) :
    List.Forall₂ (site.Answers clauses) (lastNamed "__typename" selection).toList
      (typename.map fun (key, name) => (key, Expr.string name)).toList := by
  cases hlast : lastNamed "__typename" selection with
  | none =>
    rw [hlast] at h
    obtain rfl : typename = none := h
    exact .nil
  | some f =>
    rw [hlast] at h
    obtain ⟨_, rfl, rfl⟩ := h
    exact .cons (.typename (lastNamed_mem hlast).2) .nil

/-- The call of an `edges` item collects a map of what its places hold. -/
theorem collects_of_parts {l : EdgeList} {sort : List SortKey} {items : List (ConnectionItem Field)}
    {calls : List Clause} {entries : List (String × Expr)} {s t : Supply} {edges : Selection}
    {aggregate : Option AggregateKeys} {parts : EdgeParts}
    (hheight : ∀ f ∈ edges.selection,
      Selection.listHeight (effective site.entity.name f.selection f.on) ≤ site.depth)
    (hparts : parts.Hold
      ⟨connectionNames site.entity.name site.via, site.setup.viaProperties site.via, aggregate⟩
      (fun f here => site.setup.fieldsAt site.depth site.entity
        (effective site.entity.name f.selection f.on) here)
      site.path edges.selection)
    (hitem : .edges edges.key parts.node parts.properties parts.typename ∈ items)
    (h : Field.entries site.ctx l sort items s = .ok ((calls, entries), t)) :
    site.Collects l calls entries edges := by
  obtain ⟨u, v, own, entry, hown, hsub, hentry⟩ := entries_mem h hitem
  simp only [Field.entries, bind_ok, lift_ok, pure_ok, Prod.mk.injEq] at hown
  obtain ⟨result, _, _, edge, _, _, window, _, _, ⟨nodeCalls, nodeEntries⟩, _, hnode,
    propertyEntries, _, ⟨hproperties, _⟩, _, _, ⟨rfl, _⟩, ⟨rfl, hentries⟩, _⟩ := hown
  obtain ⟨rfl, _⟩ := List.cons.inj hentries
  have hshown : List.Forall₂ (site.Answers nodeCalls) (lastOfEach edges.selection)
      (nodeEntries ++ propertyEntries ++
        (parts.typename.map fun (key, name) => (key, Expr.string name)).toList) := by
    rw [lastOfEach_eq]
    exact List.rel_append
      (List.rel_append (nodeEntry_answers hheight hparts.node hnode)
        (propertyEntries_answer hproperties hparts.properties))
      (typename_answers hparts.typename)
  have hlast {f : Selection} (hf : f ∈ edges.selection)
      (htakes : lastNamed f.name edges.selection = some f) :=
    exists_of_forall₂ hshown.flip (mem_lastOfEach (hparts.known f hf) htakes)
  exact ⟨result, edge, window, nodeCalls, _, hentry, hsub List.mem_cons_self, hshown,
    fun f hf => hlast hf, fun hnodup f hf => hlast hf (lastNamed_of_nodup hnodup hf)⟩

end Collected

/-- The clauses of a connection over one entity end in a map that has an entry for each `edges`
selection. -/
def ConnectsEdges (s : Setup) (depth : Nat) (e : Entity) (via : Option Via) (path : String)
    (selection : List Selection) (clauses : List Clause) : Prop :=
  ∃ ctx found l calls entries,
    clauses = found ++ collectEdges (edgeMap ctx) l.edges l.total ++ calls ++
      [.give (.map entries) ctx.result] ∧
    ∀ edges ∈ selection, edges.name = "edges" →
      EdgeSite.Collects ⟨s, depth, e, via, childPath path edges.key, ctx⟩ l calls entries edges

theorem lookupClauses_connectsEdges {s : Setup} {depth : Nat} {e : Entity} {via : Option Via}
    {q : Asked} {path : String} {c : Connection Field} {ctx : Context} {u v : Supply}
    {clauses : List Clause} (hdepth : q.height ≤ depth)
    (hread : s.entityConnection (s.fieldsAt depth) e via q path = .ok c)
    (h : Field.lookupClauses ctx (.connection c) u = .ok (clauses, v)) :
    ConnectsEdges s depth e via path q.selection clauses := by
  simp only [Setup.entityConnection, except_bind_ok, except_pure_ok] at hread
  obtain ⟨items, hitems, _, _, _, _, _, _, _, _, _, _, rfl⟩ := hread
  simp only [Field.lookupClauses, bind_ok, pure_ok] at h
  obtain ⟨found, _, _, ⟨collect, l⟩, _, hcollect, ⟨calls, entries⟩, _, hentries, rfl, _⟩ := h
  have hcollected : collect = collectEdges (edgeMap ctx) l.edges l.total :=
    edgeList_collects hcollect
  subst hcollected
  refine ⟨ctx, found, l, calls, entries, rfl, fun edges hedges hname => ?_⟩
  obtain ⟨parts, hparts, hitem⟩ := items_parts hitems hedges hname
  refine collects_of_parts (fun f hf => ?_) hparts hitem hentries
  exact Selection.listHeight_le_iff.mpr fun g hg =>
    Nat.le_trans (height_of_mem_node hedges hf hg) hdepth

/-- Only an entity is read as a connection over one. -/
theorem entityConnection_of_lookup {s : Setup} {below : FieldReader} {target : Target}
    {via : Option Via} {q : Asked} {path : String} {c : Connection Field}
    (h : s.readOf below target via q path = .ok (.connection c) ∨
      s.connectionOf below target via q path = .ok (.connection c)) :
    ∃ e, target = .entity e ∧ s.entityConnection below e via q path = .ok c := by
  cases target with
  | entity e =>
    rcases h with h | h
    · obtain ⟨_, _, heq⟩ := (except_map_ok ..).mp h
      cases heq
    · obtain ⟨_, hread, heq⟩ := (except_map_ok ..).mp h
      cases heq
      exact ⟨e, rfl, hread⟩
  | composite composite =>
    rcases h with h | h
    · obtain ⟨_, _, heq⟩ := (except_map_ok ..).mp h
      cases heq
    · obtain ⟨_, _, heq⟩ := (except_map_ok ..).mp h
      cases heq

end GraphSelection.Program

namespace GraphSelection

open Cypher Plan Resolve Program Scoping

/-- How connections over one entity answer their `edges`, at every depth of a plan. Each `edges`
selection is a call of its own, and the map of an edge in it has an entry for the last selection of
each place, under its key and with exactly the fields that are selected under it. So no key is lost
where no place is asked for twice. -/
theorem edgeKeys_answered (s : Setup) (r : Request) (o : Operation) (ho : s.plan r = .ok o)
    (c : Connection Field) (hc : .lookup (.connection c) ∈ o.parts) :
    ∃ q depth e via path, Asks r q ∧ q.height ≤ depth ∧
      s.entityConnection (s.fieldsAt depth) e via q path = .ok c ∧
      ∀ p, compile s r = .ok p →
        ∃ clauses, Holds clauses p.clauses ∧
          ConnectsEdges s depth e via path q.selection clauses := by
  have hoperation := plan_ok ho
  obtain ⟨q, hasks, depth, target, via, path, hdepth, _, hlookup⟩ :=
    Setup.operation_reads hoperation hc trivial
  obtain ⟨e, _, hread⟩ := entityConnection_of_lookup hlookup
  refine ⟨q, depth, e, via, path, hasks, hdepth, hread, fun p hp => ?_⟩
  obtain ⟨o', t, hplan, hprogram, _, _⟩ := compile_ok hp
  rw [ho] at hplan
  cases hplan
  have hshows : Shows o.parts p.clauses :=
    shows_programOf (fun c hc => Setup.operation_create (hc ▸ hoperation)) hprogram
  obtain ⟨_, ctx, u, v, block, hblock, hholds⟩ := hshows _ hc
  exact ⟨block, hholds, lookupClauses_connectsEdges hdepth hread hblock⟩

/-- Each place of the edge is asked for once, so both keys are answered. -/
theorem oneNode_answered :
    ∃ p c q depth e via path clauses, compile Stage.setup Stage.oneNode = .ok p ∧
      Stage.setup.plan Stage.oneNode = .ok (.lookup (.connection c)) ∧
      (∀ edges ∈ Stage.oneNode.selection, (edges.selection.map Selection.name).Nodup) ∧
      Asks Stage.oneNode q ∧ Holds clauses p.clauses ∧
      ConnectsEdges Stage.setup depth e via path q.selection clauses := by
  obtain ⟨c, hplan⟩ : ∃ c, Stage.setup.plan Stage.oneNode = .ok (.lookup (.connection c)) :=
    ⟨_, rfl⟩
  obtain ⟨p, h⟩ : ∃ p, compile Stage.setup Stage.oneNode = .ok p :=
    exists_of_isOk (by decide +kernel)
  obtain ⟨q, depth, e, via, path, hasks, _, _, hprogram⟩ :=
    edgeKeys_answered Stage.setup Stage.oneNode _ hplan c List.mem_cons_self
  obtain ⟨clauses, hholds, hconnects⟩ := hprogram p h
  exact ⟨p, c, q, depth, e, via, path, clauses, h, hplan, by decide, hasks, hholds, hconnects⟩

/-- The title that is asked for under the key `first` is shown under no key. -/
theorem twoNodes_lost :
    (∃ edges ∈ Stage.twoNodes.selection, edges.name = "edges" ∧
      edges.selection.map Selection.key = ["first", "second"]) ∧
    (compile Stage.setup Stage.twoNodes).toOption.map Compiled.text = some
      ("MATCH (this0:Film)\n" ++
        "WITH collect(\x7b node: this0 \x7d) AS edges1\n" ++
        "WITH edges1, size(edges1) AS totalCount2\n" ++
        "CALL \x7b\n" ++
        "    WITH edges1\n" ++
        "    UNWIND edges1 AS edge4\n" ++
        "    WITH edge4.node AS this0\n" ++
        "    RETURN collect(\x7b second: this0 \x7b __typename: \"Film\" \x7d \x7d) AS var3\n" ++
        "\x7d\n" ++
        "RETURN \x7b edges: var3 \x7d AS this") := by
  refine ⟨⟨_, List.mem_cons_self, rfl, rfl⟩, ?_⟩
  decide +kernel

end GraphSelection
