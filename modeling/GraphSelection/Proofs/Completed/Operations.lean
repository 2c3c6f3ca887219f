import GraphSelection.Compile
import GraphSelection.Proofs.Completed.Scopes

/-!
Every plan whose parts fit and are grounded has a program. Lookups, aggregates and changes are
built without failing wherever they stand, and the branches of a composite always return the same
columns: the one of the result and those of the sort keys.
-/
namespace GraphSelection.Program

open Cypher Plan

section Aggregates

variable {ctx : Context}

theorem measured_ok {m : Measure} {node : String} {edge : Option String}
    (h : edge = none → m.needsEdge = false) : ∃ reduced, measured m node edge = .ok reduced := by
  cases edge with
  | some edge => exact measured_some ..
  | none =>
    have hfree := h rfl
    cases m with
    | countNodes => exact ⟨_, rfl⟩
    | node a f => exact ⟨_, rfl⟩
    | countEdges => cases hfree
    | edge a f => cases hfree

/-- A call for every measure that does without an edge where there is none. -/
def Measures (ctx : Context) (call : Measure → String → Build Clause) : Prop :=
  ∀ m name, (ctx.relationship = none → m.needsEdge = false) → Completes (call m name)

mutual
theorem completes_aggregateEntry {call : Measure → String → Build Clause}
    (hcall : Measures ctx call) (item : AggregateItem)
    (h : ctx.relationship = none → item.needsEdge = false) :
    Completes (aggregateEntry call item) := by
  match item with
  | .measure key m =>
    refine (completes_fresh _).bind fun name => ?_
    exact (hcall m name h).bind fun _ => completes_pure _
  | .group key items =>
    exact (completes_aggregateEntries hcall items h).bind fun _ => completes_pure _
  | .typename key typeName => exact completes_pure _
theorem completes_aggregateEntries {call : Measure → String → Build Clause}
    (hcall : Measures ctx call) (items : List AggregateItem)
    (h : ctx.relationship = none → AggregateItem.anyNeedsEdge items = false) :
    Completes (aggregateEntries call items) := by
  match items with
  | [] => exact completes_pure _
  | item :: rest =>
    have hitem := fun hnone => (Bool.or_eq_false_iff.mp (h hnone)).1
    have hrest := fun hnone => (Bool.or_eq_false_iff.mp (h hnone)).2
    refine (completes_aggregateEntry hcall item hitem).bind fun _ => ?_
    exact (completes_aggregateEntries hcall rest hrest).bind fun _ => completes_pure _
end

/-- Where a scope is reached, there is an edge unless the scope has no relationship. -/
theorem Context.Reaches.free {relationship : Option Relationship} (h : ctx.Reaches relationship)
    (hnone : ctx.relationship = none) : relationship = none := by
  cases relationship with
  | none => rfl
  | some r =>
    obtain ⟨name, hedge⟩ := h.edge rfl
    simp [Context.edge, hnone] at hedge

theorem completes_aggregateClauses {a : Aggregate} (hreaches : ctx.Reaches a.scope.relationship)
    (hfits : a.scope.Fits Stated false)
    (hgrounded : a.scope.relationship = none → AggregateItem.anyNeedsEdge a.items = false) :
    Completes (aggregateClauses ctx a) := by
  have hcall : Measures ctx (measureCall ctx a.scope) := by
    intro m name hm
    refine Completes.bind ?_ fun imports => ?_
    · refine completes_lift ?_
      cases hrelationship : a.scope.relationship with
      | none => exact ⟨_, rfl⟩
      | some r =>
        rw [hrelationship] at hreaches
        obtain ⟨parent, hparent⟩ := hreaches.parent rfl
        simp only [hparent]
        exact ⟨_, rfl⟩
    · refine (completes_scopeMatch (hasEdge_false ctx) hreaches hfits).bind fun found => ?_
      exact (completes_lift (measured_ok hm)).bind fun _ => completes_pure _
  have hitems := fun hnone => hgrounded (hreaches.free hnone)
  exact (completes_aggregateEntries hcall a.items hitems).bind fun _ => completes_pure _

theorem completes_edgeList {φ : Type} (edge : Expr) (items : List (ConnectionItem φ))
    (page : Page) : Completes (edgeList edge items page) := by
  refine (completes_fresh _).bind fun edges => (completes_fresh _).bind fun total => ?_
  split
  · exact (completes_bounds page).bind fun _ => completes_pure _
  · exact completes_pure _

end Aggregates

section Branches

variable {ctx : Context}

/-- One column for each sort key. -/
theorem builds_sortColumns (sort : List SortKey) :
    Builds (fun columns => columns.length = sort.length) (sortColumns sort) := by
  induction sort with
  | nil => exact builds_pure rfl
  | cons key rest ih =>
    refine (completes_fresh _).bind fun name => ih.bind fun names hnames => ?_
    exact builds_pure (by simp [hnames])

/-- The values of the sort keys stand under the names of their columns. -/
theorem builds_branchKeys {edges : Bool} (hedge : ctx.HasEdge edges) {sort : List SortKey}
    (h : ∀ key ∈ sort, key.target.Fits Stated edges) (columns : List String) :
    Builds (fun r => sort.length = columns.length → r.2.map Prod.fst = columns)
      (branchKeys ctx sort columns) := by
  have hzip : ∀ key ∈ (sort.zip columns).map Prod.fst, key.target.Fits Stated edges := by
    intro key hkey
    obtain ⟨⟨key', column⟩, hmem, rfl⟩ := List.mem_map.mp hkey
    exact h key' (List.of_mem_zip hmem).1
  refine (builds_sortValues hedge hzip).bind fun r hlength => builds_pure fun hsame => ?_
  have hkeys : columns.length ≤ (r.2.map OrderKey.expression).length := by
    rw [List.length_map, hlength, List.length_map, List.length_zip]
    omega
  exact List.map_fst_zip hkeys

/-- A scope beside another is reached as that one is. -/
structure Context.SameReach (ctx own : Context) : Prop where
  edge : own.relationship.isSome = ctx.relationship.isSome
  parents : own.parents = ctx.parents

theorem Context.SameReach.hasEdge {own : Context} (h : ctx.SameReach own) {edges : Bool}
    (hedge : ctx.HasEdge edges) : own.HasEdge edges := by
  intro hedges
  obtain ⟨name, hname⟩ := hedge hedges
  have hsome : ctx.relationship.isSome = true := by
    cases hrelationship : ctx.relationship with
    | none => simp [Context.edge, hrelationship] at hname
    | some found => rfl
  obtain ⟨edge, hfound⟩ := Option.isSome_iff_exists.mp (h.edge.trans hsome)
  exact ⟨edge, by simp [Context.edge, hfound]⟩

theorem Context.SameReach.reaches {own : Context} (h : ctx.SameReach own)
    {relationship : Option Relationship} (hreaches : ctx.Reaches relationship) :
    own.Reaches relationship := by
  refine ⟨h.hasEdge hreaches.edge, fun hsome => ?_⟩
  obtain ⟨parent, hparent⟩ := hreaches.parent hsome
  exact ⟨parent, by rw [← hparent]; simp only [Context.parent, h.parents]⟩

theorem builds_branchContext (ctx : Context) (isFirst : Bool) :
    Builds ctx.SameReach (branchContext ctx isFirst) := by
  unfold branchContext
  split
  · exact builds_pure ⟨rfl, rfl⟩
  · refine (completes_fresh _).bind fun subject => ?_
    split
    · rename_i hnone
      exact builds_pure ⟨by rw [hnone]; rfl, rfl⟩
    · rename_i hsome
      exact (completes_fresh _).bind fun edge => builds_pure ⟨by rw [hsome]; rfl, rfl⟩

theorem branchColumns_giveAll (before : List Clause) (e : Expr) (column : String)
    (keys : List (String × Expr)) :
    branchColumns (before ++ [.giveAll (Column.named e column ::
      keys.map fun (name, e) => Column.named e name)]) = column :: keys.map Prod.fst := by
  simp [branchColumns, Clause.giveAll, Clause.returned?, Column.name?, Column.named,
    Function.comp_def]

theorem branchColumns_give (before : List Clause) (e : Expr) (column : String) :
    branchColumns (before ++ [.give e column]) = [column] :=
  branchColumns_giveAll before e column []

theorem unionCall_ok_of_same (composite column : String) {bodies : List (List Clause)}
    {columns : List String} (h : ∀ body ∈ bodies, branchColumns body = columns) :
    ∃ clause, unionCall composite bodies column = .ok clause := by
  have hnone : ∀ rest : List (List Clause), (∀ body ∈ rest, branchColumns body = columns) →
      firstMismatch columns rest = none := by
    intro rest hrest
    induction rest with
    | nil => rfl
    | cons body rest ih =>
      rw [firstMismatch, if_pos (hrest body List.mem_cons_self)]
      exact ih fun body hbody => hrest body (List.mem_cons_of_mem _ hbody)
  cases bodies with
  | nil => exact ⟨_, rfl⟩
  | cons first rest =>
    have hrest := hnone rest fun body hbody => h body (List.mem_cons_of_mem _ hbody)
    refine ⟨.call [] [.union (first :: rest)], ?_⟩
    simp only [unionCall, h first List.mem_cons_self, hrest]

theorem completes_mergedWindow (column : String) (sort : List SortKey) (columns : List String)
    (page : Page) : Completes (mergedWindow column sort columns page) := by
  unfold mergedWindow
  split
  · exact completes_pure _
  · exact (completes_bounds page).bind fun _ => completes_pure _

theorem completes_mergedEntries {φ : Type} (l : EdgeList) (composite : String)
    (sort : List SortKey) (columns : List String) {items : List (ConnectionItem φ)}
    (h : ∀ item ∈ items, item.isAggregate = false) :
    Completes (mergedEntries l composite sort columns items) := by
  induction items with
  | nil => exact completes_pure _
  | cons item rest ih =>
    refine Completes.bind ?_ fun first => ?_
    · cases item with
      | edges key node properties typename =>
        exact (completes_fresh _).bind fun _ => (completes_fresh _).bind fun _ => completes_pure _
      | aggregate key items => cases h _ List.mem_cons_self
      | totalCount key => exact completes_pure _
      | pageInfo key fields => exact completes_pure _
      | typename key typeName => exact completes_pure _
    · refine (ih fun item hitem => h item (List.mem_cons_of_mem _ hitem)).bind fun _ => ?_
      exact completes_pure _

end Branches

/-- A part that can be written down. -/
structure Writable (p : Part) : Prop where
  fits : p.Fits Stated
  grounded : p.Grounded

section Fields

theorem completes_nestedCall (ctx : Context) {body : Context → Build (List Clause)}
    (h : ∀ node edge result, Completes (body (ctx.enter node (some edge) result))) :
    Completes (nestedCall ctx body) := by
  refine (completes_fresh _).bind fun edge => (completes_fresh _).bind fun node => ?_
  refine (completes_fresh _).bind fun result => ?_
  exact (h node edge result).bind fun _ => completes_pure _

theorem completes_edgeProjection {ctx : Context} (h : ∃ name, ctx.edge = .ok name)
    (fields : List EdgeField) : ∃ e, edgeProjection ctx fields = .ok e := by
  obtain ⟨name, hname⟩ := h
  unfold edgeProjection
  simp only [hname]
  exact ⟨_, rfl⟩

theorem edge_of_needed {ctx : Context} (h : ctx.relationship ≠ none) :
    ∃ name, ctx.edge = .ok name := by
  cases hrelationship : ctx.relationship with
  | none => exact absurd hrelationship h
  | some name => exact ⟨name, by simp [Context.edge, hrelationship]⟩

-- A nested lookup or aggregate is entered over an edge, so it is reached whatever its relationship
-- is; the context matters for the lookup of the root only.
mutual
theorem completes_item (ctx : Context) (f : Field) (h : ∀ part ∈ f.parts, Writable part) :
    Completes (Field.item ctx f) := by
  match f with
  | .stored key a => exact completes_pure _
  | .typename key typeName => exact completes_pure _
  | .computed key a =>
    have hstated : Stated a := (h _ List.mem_cons_self).fits
    refine (completes_fresh _).bind fun name => ?_
    exact (completes_computedCall hstated name).bind fun _ => completes_pure _
  | .lookup key l =>
    refine (completes_nestedCall ctx fun node edge result => ?_).bind fun _ => completes_pure _
    refine completes_lookupClauses _ l (reaches_enter ..) fun part hpart => ?_
    exact h part (List.mem_cons_of_mem _ hpart)
  | .aggregate key a =>
    have hpart : Writable (.aggregate a) := h _ (List.mem_cons_of_mem _ List.mem_cons_self)
    refine (completes_nestedCall ctx fun node edge result => ?_).bind fun _ => completes_pure _
    exact completes_aggregateClauses (reaches_enter ..) hpart.fits hpart.grounded
theorem completes_items (ctx : Context) (fields : List Field)
    (h : ∀ part ∈ Field.partsOf fields, Writable part) : Completes (Field.items ctx fields) := by
  match fields with
  | [] => exact completes_pure _
  | f :: rest =>
    refine (completes_item ctx f fun part hpart => h part (List.mem_append_left _ hpart)).bind ?_
    intro first
    refine (completes_items ctx rest fun part hpart =>
      h part (List.mem_append_right _ hpart)).bind fun _ => completes_pure _
theorem completes_lookupClauses (ctx : Context) (l : Lookup Field)
    (hreaches : ctx.Reaches l.relationship?) (h : ∀ part ∈ Field.lookupParts l, Writable part) :
    Completes (Field.lookupClauses ctx l) := by
  match l with
  | .read ⟨scope, fields, sort, page⟩ =>
    have hfits : (Read.mk scope fields sort page).Fits Stated false :=
      (h _ List.mem_cons_self).fits
    have hedge := hasEdge_false ctx
    refine (completes_distinctNodes hedge hreaches hfits.scope).bind fun found => ?_
    refine (completes_arranged hedge hfits.sort page).bind fun window => ?_
    refine (completes_items ctx fields fun part hpart =>
      h part (List.mem_cons_of_mem _ hpart)).bind fun _ => completes_pure _
  | .connection ⟨scope, sort, page, items⟩ =>
    obtain ⟨⟨hscope, hsort⟩, hgrounded⟩ := h _ List.mem_cons_self
    refine (completes_scopeMatch hreaches.edge hreaches hscope).bind fun found => ?_
    refine (completes_edgeList _ items page).bind fun l => ?_
    refine (completes_entries ctx l.2 hreaches.edge sort hsort items ?_ ?_).bind fun _ =>
      completes_pure _
    · exact fun item hitem hnone => hgrounded (hreaches.free hnone) item hitem
    · exact fun part hpart => h part (List.mem_cons_of_mem _ hpart)
  | .composite ⟨composite, relationship, branches, sort, page⟩ =>
    have hfits := (h _ List.mem_cons_self).fits
    refine (completes_fresh _).bind fun column => ?_
    refine (builds_sortColumns sort).bind fun columns hcolumns => ?_
    have hbranches : ∀ b ∈ branches, b.Fits Stated false ∧ ctx.Reaches b.scope.relationship ∧
        b.sort.length = columns.length := by
      intro b hb
      obtain ⟨hb, hrelationship, hlength⟩ := hfits b hb
      exact ⟨hb, hrelationship ▸ hreaches, hlength.trans hcolumns.symm⟩
    refine (builds_branches ctx column columns true branches hbranches fun part hpart =>
      h part (List.mem_cons_of_mem _ hpart)).bind fun bodies hbodies => ?_
    refine (completes_lift (unionCall_ok_of_same _ column hbodies)).bind fun union => ?_
    exact (completes_mergedWindow ..).bind fun _ => completes_pure _
  | .compositeConnection ⟨composite, relationship, branches, sort, page, items⟩ =>
    obtain ⟨hfits, hgrounded⟩ := h _ List.mem_cons_self
    refine (completes_fresh _).bind fun column => ?_
    refine (builds_sortColumns sort).bind fun columns _ => ?_
    have hbranches : ∀ b ∈ branches, b.read.Fits Stated relationship.isSome ∧
        b.read.scope.relationship = relationship := fun b hb => hfits b hb
    refine (builds_connectionBranches ctx column columns hreaches true branches hbranches
      fun part hpart => h part (List.mem_cons_of_mem _ hpart)).bind fun bodies hbodies => ?_
    refine (completes_lift (unionCall_ok_of_same _ column hbodies)).bind fun union => ?_
    refine (completes_edgeList _ items page).bind fun l => ?_
    exact (completes_mergedEntries l.2 composite.name sort columns hgrounded).bind fun _ =>
      completes_pure _
theorem completes_entries (ctx : Context) (l : EdgeList) {edges : Bool}
    (hedge : ctx.HasEdge edges) (sort : List SortKey)
    (hsort : ∀ key ∈ sort, key.target.Fits Stated edges) (items : List (ConnectionItem Field))
    (hitems : ∀ item ∈ items, ctx.relationship = none → item.needsEdge = false)
    (h : ∀ part ∈ Field.itemParts items, Writable part) :
    Completes (Field.entries ctx l sort items) := by
  match items with
  | [] => exact completes_pure _
  | .edges key node properties typename :: rest =>
    refine (completes_fresh _).bind fun result => (completes_fresh _).bind fun edge => ?_
    refine (completes_orderedWindow hedge hsort l.bounds).bind fun window => ?_
    refine (completes_nodeEntry ctx node fun part hpart =>
      h part (List.mem_append_left _ hpart)).bind fun shown => ?_
    refine Completes.bind ?_ fun entries => ?_
    · refine completes_lift ?_
      match properties with
      | none => exact ⟨_, rfl⟩
      | some (key, fields) =>
        have hneeded : ctx.relationship ≠ none := by
          intro hnone
          cases hitems _ List.mem_cons_self hnone
        obtain ⟨e, he⟩ := completes_edgeProjection (edge_of_needed hneeded) fields
        simp only [he]
        exact ⟨_, rfl⟩
    · refine (completes_entries ctx l hedge sort hsort rest
        (fun item hitem => hitems item (List.mem_cons_of_mem _ hitem))
        fun part hpart => h part (List.mem_append_right _ hpart)).bind fun _ => completes_pure _
  | .aggregate key aggregates :: rest =>
    have hcall : Measures ctx (edgeMeasureCall ctx l.edges) := by
      intro m name hm
      refine (completes_fresh _).bind fun edge => ?_
      exact (completes_lift (measured_ok hm)).bind fun _ => completes_pure _
    have hfirst := hitems (.aggregate key aggregates) List.mem_cons_self
    refine (completes_aggregateEntries hcall aggregates hfirst).bind fun group => ?_
    exact (completes_entries ctx l hedge sort hsort rest
      (fun item hitem => hitems item (List.mem_cons_of_mem _ hitem)) h).bind fun _ =>
        completes_pure _
  | .totalCount key :: rest =>
    exact (completes_entries ctx l hedge sort hsort rest
      (fun item hitem => hitems item (List.mem_cons_of_mem _ hitem)) h).bind fun _ =>
        completes_pure _
  | .pageInfo key fields :: rest =>
    exact (completes_entries ctx l hedge sort hsort rest
      (fun item hitem => hitems item (List.mem_cons_of_mem _ hitem)) h).bind fun _ =>
        completes_pure _
  | .typename key typeName :: rest =>
    exact (completes_entries ctx l hedge sort hsort rest
      (fun item hitem => hitems item (List.mem_cons_of_mem _ hitem)) h).bind fun _ =>
        completes_pure _
theorem completes_nodeEntry (ctx : Context) (node : Option (String × List Field))
    (h : ∀ part ∈ Field.nodeParts node, Writable part) : Completes (Field.nodeEntry ctx node) := by
  match node with
  | none => exact completes_pure _
  | some (key, fields) => exact (completes_items ctx fields h).bind fun _ => completes_pure _
theorem builds_branches (ctx : Context) (column : String) (columns : List String) (isFirst : Bool)
    (branches : List (Read Field))
    (hbranches : ∀ b ∈ branches, b.Fits Stated false ∧ ctx.Reaches b.scope.relationship ∧
      b.sort.length = columns.length)
    (h : ∀ part ∈ Field.branchParts branches, Writable part) :
    Builds (fun bodies => ∀ body ∈ bodies, branchColumns body = column :: columns)
      (Field.branches ctx column columns isFirst branches) := by
  match branches with
  | [] => exact builds_pure fun body hbody => absurd hbody List.not_mem_nil
  | ⟨scope, fields, sort, page⟩ :: rest =>
    obtain ⟨hfits, hreaches, hlength⟩ := hbranches _ List.mem_cons_self
    refine (builds_branchContext ctx isFirst).bind fun own hown => ?_
    have hedge := hasEdge_false own
    refine completes_importParent.bind fun start => ?_
    refine (completes_distinctNodes hedge (hown.reaches hreaches) hfits.scope).bind fun found => ?_
    refine (completes_items own fields fun part hpart =>
      h part (List.mem_append_left _ hpart)).bind fun shown => ?_
    refine (builds_branchKeys hedge hfits.sort columns).bind fun keys hkeys => ?_
    refine (builds_branches ctx column columns false rest
      (fun b hb => hbranches b (List.mem_cons_of_mem _ hb))
      fun part hpart => h part (List.mem_append_right _ hpart)).bind fun bodies hbodies => ?_
    refine builds_pure fun body hbody => ?_
    rcases List.mem_cons.mp hbody with rfl | hbody
    · rw [branchColumns_giveAll, hkeys hlength]
    · exact hbodies body hbody
theorem builds_connectionBranches (ctx : Context) (column : String) (columns : List String)
    {relationship : Option Relationship} (hreaches : ctx.Reaches relationship) (isFirst : Bool)
    (branches : List (ConnectionBranch Field))
    (hbranches : ∀ b ∈ branches, b.read.Fits Stated relationship.isSome ∧
      b.read.scope.relationship = relationship)
    (h : ∀ part ∈ Field.connectionBranchParts branches, Writable part) :
    Builds (fun bodies => ∀ body ∈ bodies, branchColumns body = [column])
      (Field.connectionBranches ctx column columns isFirst branches) := by
  match branches with
  | [] => exact builds_pure fun body hbody => absurd hbody List.not_mem_nil
  | ⟨⟨scope, fields, sort, page⟩, edgeFields⟩ :: rest =>
    obtain ⟨hfits, hrelationship⟩ := hbranches _ List.mem_cons_self
    refine (builds_branchContext ctx isFirst).bind fun own hown => ?_
    have hedge := hown.hasEdge hreaches.edge
    have hscope : own.Reaches scope.relationship := hrelationship ▸ hown.reaches hreaches
    refine completes_importParent.bind fun start => ?_
    refine (completes_scopeMatch hedge hscope hfits.scope).bind fun found => ?_
    refine (completes_items own fields fun part hpart =>
      h part (List.mem_append_left _ hpart)).bind fun shown => ?_
    refine Completes.bind ?_ fun properties => ?_
    · refine completes_lift ?_
      cases hfound : own.relationship with
      | none => exact ⟨_, rfl⟩
      | some name =>
        have hthere : ∃ name, own.edge = .ok name := ⟨name, by simp [Context.edge, hfound]⟩
        obtain ⟨e, he⟩ := completes_edgeProjection hthere edgeFields
        simp only [he]
        exact ⟨_, rfl⟩
    refine (builds_branchKeys hedge hfits.sort columns).completes.bind fun keys => ?_
    refine (builds_connectionBranches ctx column columns hreaches false rest
      (fun b hb => hbranches b (List.mem_cons_of_mem _ hb))
      fun part hpart => h part (List.mem_append_right _ hpart)).bind fun bodies hbodies => ?_
    refine builds_pure fun body hbody => ?_
    rcases List.mem_cons.mp hbody with rfl | hbody
    · exact branchColumns_give ..
    · exact hbodies body hbody
end

end Fields

section Changes

theorem completes_assigned (name : String) (assignments : List Assignment) :
    Completes (assigned name assignments) := by
  refine Completes.bind ?_ fun _ => completes_pure _
  induction assignments with
  | nil => exact completes_pure _
  | cons a rest ih =>
    refine Completes.bind ?_ fun first => ih.bind fun _ => completes_pure _
    exact (completes_typedParam ..).bind fun _ => completes_pure _

theorem completes_linkedNodes (ctx : Context) (node edge result : String) (link : Link)
    {filter : Option Condition} (h : ∀ c ∈ filter, c.Fits Stated true) :
    Completes (linkedNodes ctx (ctx.enter node (some edge) result) link filter) := by
  have hedge := hasEdge_enter ctx node edge result true
  exact (completes_lift (hedge rfl)).bind fun name => completes_filteredMatch hedge _ h

mutual
theorem completes_clause (ctx : Context) (m : Mutation) (h : ∀ part ∈ m.parts, Writable part) :
    Completes (Mutation.clause ctx m) := by
  match m with
  | .create link ⟨assignments, nested, validations⟩ edgeAssignments =>
    have hfits : FitsAll Stated validations := (h _ List.mem_cons_self).fits
    refine (completes_fresh _).bind fun edge => (completes_fresh _).bind fun node => ?_
    refine (completes_fresh _).bind fun result => ?_
    refine (completes_assigned ..).bind fun own => (completes_assigned ..).bind fun onEdge => ?_
    refine (completes_after _ _ nested fun part hpart =>
      h part (List.mem_cons_of_mem _ hpart)).bind fun written => ?_
    exact (completes_validated hfits).bind fun _ => completes_pure _
  | .connect link filter edgeAssignments validations =>
    obtain ⟨hfilter, hvalidations⟩ := (h _ List.mem_cons_self).fits
    refine (completes_fresh _).bind fun edge => (completes_fresh _).bind fun node => ?_
    refine (completes_fresh _).bind fun result => ?_
    refine (completes_filteredMatch (hasEdge_false _) _ hfilter).bind fun found => ?_
    refine (completes_assigned ..).bind fun onEdge => ?_
    exact (completes_validated hvalidations).bind fun _ => completes_pure _
  | .disconnect link filter validations =>
    obtain ⟨hfilter, hvalidations⟩ := (h _ List.mem_cons_self).fits
    refine (completes_fresh _).bind fun edge => (completes_fresh _).bind fun node => ?_
    refine (completes_fresh _).bind fun result => ?_
    refine (completes_linkedNodes _ _ _ _ _ hfilter).bind fun found => ?_
    exact (completes_validated hvalidations).bind fun _ => completes_pure _
  | .update link filter before nodeAssignments edgeAssignments after =>
    obtain ⟨hfilter, hbefore, hafter⟩ := (h _ List.mem_cons_self).fits
    refine (completes_fresh _).bind fun edge => (completes_fresh _).bind fun node => ?_
    refine (completes_fresh _).bind fun result => ?_
    refine (completes_linkedNodes _ _ _ _ _ hfilter).bind fun found => ?_
    refine (completes_validated hbefore).bind fun first => ?_
    refine (completes_assigned ..).bind fun own => (completes_assigned ..).bind fun onEdge => ?_
    exact (completes_validated hafter).bind fun _ => completes_pure _
  | .delete link filter before nested =>
    obtain ⟨hfilter, hbefore⟩ := (h _ List.mem_cons_self).fits
    refine (completes_fresh _).bind fun edge => (completes_fresh _).bind fun node => ?_
    refine (completes_fresh _).bind fun result => ?_
    refine (completes_linkedNodes _ _ _ _ _ hfilter).bind fun found => ?_
    refine (completes_validated hbefore).bind fun first => ?_
    refine (completes_after _ _ nested fun part hpart =>
      h part (List.mem_cons_of_mem _ hpart)).bind fun _ => completes_pure _
theorem completes_after (ctx : Context) (before : List Clause) (ms : List Mutation)
    (h : ∀ part ∈ Mutation.partsOf ms, Writable part) :
    Completes (Mutation.after ctx before ms) := by
  match ms with
  | [] => exact completes_pure _
  | m :: rest =>
    refine (completes_clause ctx m fun part hpart =>
      h part (List.mem_append_left _ hpart)).bind fun clause => ?_
    exact completes_after ctx _ rest fun part hpart => h part (List.mem_append_right _ hpart)
end

theorem completes_newNodes (ctx : Context) (e : Entity) (isFirst : Bool)
    {nodes : List (NewNode Mutation)}
    (h : ∀ n ∈ nodes, ∀ part ∈ newNodeParts e n, Writable part) :
    Completes (newNodes ctx e isFirst nodes) := by
  induction nodes generalizing isFirst with
  | nil => exact completes_pure _
  | cons n rest ih =>
    have hparts := h n List.mem_cons_self
    have hfits : FitsAll Stated n.validations := (hparts _ List.mem_cons_self).fits
    refine (builds_branchContext ctx isFirst).completes.bind fun own => ?_
    refine Completes.bind ?_ fun body => ?_
    · refine (completes_assigned ..).bind fun assigned => ?_
      refine (completes_after _ _ n.nested fun part hpart =>
        hparts part (List.mem_cons_of_mem _ hpart)).bind fun written => ?_
      exact (completes_validated hfits).bind fun _ => completes_pure _
    · refine (ih false fun n hn => h n (List.mem_cons_of_mem _ hn)).bind fun _ => ?_
      exact completes_pure _

theorem completes_projections {fields : List Field}
    (h : ∀ part ∈ Field.partsOf fields, Writable part) (contexts : List Context) :
    Completes (projections fields contexts) := by
  induction contexts with
  | nil => exact completes_pure _
  | cons ctx rest ih =>
    exact (completes_items ctx fields h).bind fun _ => ih.bind fun _ => completes_pure _

end Changes

theorem completes_operationClauses {ctx : Context} {o : Operation} (hfree : o.StartsFree)
    (h : ∀ part ∈ o.parts, Writable part) : Completes (operationClauses ctx o) := by
  cases o with
  | lookup l => exact completes_lookupClauses ctx l (hfree ▸ reaches_none ctx) h
  | aggregate a =>
    have hpart : Writable (.aggregate a) := h _ List.mem_cons_self
    have hreaches : ctx.Reaches a.scope.relationship := by
      rw [show a.scope.relationship = none from hfree]
      exact reaches_none ctx
    exact completes_aggregateClauses hreaches hpart.fits hpart.grounded
  | create c =>
    have hnodes : ∀ n ∈ c.nodes, ∀ part ∈ newNodeParts c.entity n, Writable part := by
      intro n hn part hpart
      exact h part (List.mem_append_left _ (List.mem_flatMap.mpr ⟨n, hn, hpart⟩))
    refine (completes_newNodes ctx c.entity true hnodes).bind fun made => ?_
    refine (completes_projections (fun part hpart =>
      h part (List.mem_append_right _ hpart)) _).bind fun _ => completes_pure _
  | update u =>
    obtain ⟨hfilter, hbefore, hafter⟩ := (h _ List.mem_cons_self).fits
    have hrest := fun part hpart => h part (List.mem_cons_of_mem _ hpart)
    refine (completes_filteredMatch (hasEdge_false ctx) _ hfilter).bind fun found => ?_
    refine (completes_validated hbefore).bind fun first => ?_
    refine (completes_assigned ..).bind fun own => ?_
    refine (completes_after _ _ u.nested fun part hpart =>
      hrest part (List.mem_append_left _ hpart)).bind fun written => ?_
    refine (completes_validated hafter).bind fun last => ?_
    refine (completes_items ctx u.fields fun part hpart =>
      hrest part (List.mem_append_right _ hpart)).bind fun _ => completes_pure _
  | delete d =>
    obtain ⟨hfilter, hbefore⟩ := (h _ List.mem_cons_self).fits
    refine (completes_filteredMatch (hasEdge_false ctx) _ hfilter).bind fun found => ?_
    refine (completes_validated hbefore).bind fun first => ?_
    refine (completes_after _ _ d.nested fun part hpart =>
      h part (List.mem_cons_of_mem _ hpart)).bind fun _ => completes_pure _

/-- The program of a plan that starts nowhere and whose parts can be written down. -/
theorem completes_programOf (terms : Terms) {o : Operation} (hfree : o.StartsFree)
    (h : ∀ part ∈ o.parts, Writable part) : Completes (programOf terms o) :=
  (completes_fresh _).bind fun _ => completes_operationClauses hfree h

end GraphSelection.Program
