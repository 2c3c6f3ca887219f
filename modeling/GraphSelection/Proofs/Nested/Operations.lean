import GraphSelection.Proofs.Nested.Scopes
import GraphSelection.Proofs.Scoping
import GraphSelection.Proofs.WellScoped

/-!
The nesting of whole programs. Each scope of a plan adds at most two blocks to the nesting: the
call of a nested lookup, and the call that merges the branches of a composite or takes the edges of
a connection apart. A limit on the depth of plans is therefore a limit on the nesting of programs.
-/
namespace GraphSelection.Program

open Cypher Plan

section Connections

variable {ctx : Context} {n : Nat}

theorem nesting_edgeMap (ctx : Context) : (edgeMap ctx).nesting = 0 := by
  refine nesting_map fun entry hentry => ?_
  rcases List.mem_cons.mp hentry with rfl | hentry
  · rfl
  · obtain ⟨r, _, rfl⟩ := Option.map_eq_some_iff.mp (Option.mem_toList.mp hentry)
    rfl

/-- The clauses that collect the edges hold no block, and neither do the bounds of the page. -/
theorem nesting_edgeList {φ : Type} {edge : Expr} (h : edge.nesting = 0)
    (items : List (ConnectionItem φ)) (page : Page) :
    Ensures (fun r => Clause.nestingOf r.1 = 0 ∧ r.2.bounds.All (·.nesting = 0))
      (edgeList edge items page) := by
  have hcollect : ∀ edges total, Clause.nestingOf (collectEdges edge edges total) = 0 := by
    simp [collectEdges, Expr.nestingOfColumns, Column.named, Column.var, Expr.nesting,
      Expr.nestingOf, h]
  refine ensures_skip _ fun edges => ensures_skip _ fun total => ?_
  split
  · refine (nesting_bounds page).bind fun b hb => ensures_pure ?_
    exact ⟨hcollect edges total, hb⟩
  · exact ensures_pure ⟨hcollect edges total, Bounds.all_whole⟩

theorem nesting_pageInfo {l : EdgeList} (hb : l.bounds.All (·.nesting = 0))
    (fields : List PageInfoField) : (Expr.map (fields.map l.pageInfo)).nesting = 0 := by
  obtain ⟨edges, total, skip, limit⟩ := l
  have hskip : Expr.nestingOfOption skip = 0 := nestingOfOption_bound hb.skip
  have hlimit : Expr.nestingOfOption limit = 0 := nestingOfOption_bound hb.limit
  refine nesting_map fun entry hentry => ?_
  obtain ⟨field, _, rfl⟩ := List.mem_map.mp hentry
  cases field <;> cases skip <;> cases limit <;>
    simp_all [EdgeList.pageInfo, EdgeList.hasNextPage, EdgeList.hasPreviousPage, Expr.nesting,
      Expr.nestingOfOption, Expr.bool, Expr.int, Expr.string]

theorem nesting_unpackEdge (ctx : Context) (edges edge : String) :
    Clause.nestingOf (unpackEdge ctx edges edge) = 0 := by
  unfold unpackEdge
  cases ctx.relationship <;>
    simp [Clause.nesting, Expr.nesting, Expr.nestingOfColumns, Column.named, Expr.propertyOf]

theorem nesting_edgeMeasureCall (edges : String) (m : Measure) (result : String) :
    Ensures (fun c => c.nesting ≤ 1) (edgeMeasureCall ctx edges m result) := by
  refine ensures_skip _ fun edge => ?_
  refine (ensures_lift fun reduced h => nesting_measured h).bind fun reduced hreduced => ?_
  exact ensures_pure (by simp [nesting_unpackEdge, hreduced])

theorem nesting_edgesResult {entries : List (String × Expr)}
    (h : ∀ entry ∈ entries, entry.2.nesting = 0) (typename : Option (String × String))
    (result : String) : (edgesResult entries typename result).nesting = 0 := by
  have hcollected : ∀ more : List (String × Expr), (∀ entry ∈ more, entry.2.nesting = 0) →
      (Clause.give (.apply "collect" [.map (entries ++ more)]) result).nesting = 0 := by
    intro more hmore
    have hmap := nesting_map (List.forall_mem_append.mpr ⟨h, hmore⟩)
    simpa [Expr.nesting, Expr.nestingOf] using hmap
  refine hcollected _ fun entry hentry => ?_
  obtain ⟨_, _, rfl⟩ := Option.map_eq_some_iff.mp (Option.mem_toList.mp hentry)
  rfl

theorem named_nil : Named n ([], []) := ⟨Nat.zero_le n, by simp⟩

theorem Named.cons (calls : List Clause) {e : Expr} {r : List Clause × List (String × Expr)}
    (hcalls : Clause.nestingOf calls ≤ n) (he : e.nesting = 0) (hr : Named n r) (key : String) :
    Named n (calls ++ r.1, (key, e) :: r.2) :=
  ⟨by rw [nestingOf_append]; exact Nat.max_le.mpr ⟨hcalls, hr.1⟩,
    List.forall_mem_cons.mpr ⟨he, hr.2⟩⟩

theorem nesting_mergedOrder {value : String → Expr} (h : ∀ name, (value name).nesting = 0)
    (sort : List SortKey) (columns : List String) :
    Expr.nestingOfOrder (mergedOrder value sort columns) = 0 := by
  refine Nat.le_zero.mp (nestingOfOrder_le.mpr fun key hkey => ?_)
  obtain ⟨pair, _, rfl⟩ := List.mem_map.mp hkey
  exact Nat.le_of_eq (h pair.2)

theorem nesting_mergedWindow (column : String) (sort : List SortKey) (columns : List String)
    (page : Page) :
    Ensures (fun cs => Clause.nestingOf cs = 0) (mergedWindow column sort columns page) := by
  have hcolumns : Expr.nestingOfColumns (columns.map Column.var) = 0 := by
    refine Nat.le_zero.mp (nestingOfColumns_le.mpr fun c hc => ?_)
    obtain ⟨name, _, rfl⟩ := List.mem_map.mp hc
    exact Nat.le_refl 0
  unfold mergedWindow
  split
  · exact ensures_pure rfl
  · refine (nesting_bounds page).bind fun b hb => ensures_pure ?_
    have horder : Expr.nestingOfOrder (mergedOrder .var sort columns) = 0 :=
      nesting_mergedOrder (fun _ => rfl) sort columns
    simp [Clause.nesting, Expr.nestingOfColumns, hcolumns, Column.var, Expr.nesting, horder,
      nestingOfOption_bound hb.skip, nestingOfOption_bound hb.limit, Expr.nestingOfOption]

theorem nesting_mergedEdgesCall {l : EdgeList} (hb : l.bounds.All (·.nesting = 0))
    (sort : List SortKey) (columns : List String) (node properties : Option String)
    (typename : Option (String × String)) :
    Ensures (fun r => Clause.nestingOf r.1 ≤ 1 ∧ r.2.nesting = 0)
      (mergedEdgesCall l sort columns node properties typename) := by
  refine ensures_skip _ fun result => ensures_skip _ fun edge => ensures_pure ⟨?_, rfl⟩
  have hentries : ∀ entry ∈ (node.map fun key => (key, Expr.propertyOf edge "node")).toList ++
      (properties.map fun key => (key, Expr.propertyOf edge "properties")).toList,
      entry.2.nesting = 0 := by
    cases node <;> cases properties <;> simp [Expr.propertyOf, Expr.nesting]
  have hresult := nesting_edgesResult hentries typename result
  have horder : Expr.nestingOfOrder (mergedOrder (Expr.propertyOf edge) sort columns) = 0 :=
    nesting_mergedOrder (fun _ => rfl) sort columns
  split <;> simp [hresult, horder, Clause.nesting, Expr.nesting, Expr.nestingOfColumns, Column.var,
    Expr.nestingOfOption, nestingOfOption_bound hb.skip, nestingOfOption_bound hb.limit]

theorem nesting_mergedEntries {φ : Type} {l : EdgeList} (hb : l.bounds.All (·.nesting = 0))
    (composite : String) (sort : List SortKey) (columns : List String)
    (items : List (ConnectionItem φ)) :
    Ensures (Named 1) (mergedEntries l composite sort columns items) := by
  induction items with
  | nil => exact ensures_pure named_nil
  | cons item rest ih =>
    refine Ensures.bind (p := fun r => Clause.nestingOf r.1 ≤ 1 ∧ r.2.nesting = 0) ?_
      fun first hfirst => ?_
    · cases item with
      | edges key node properties typename => exact nesting_mergedEdgesCall hb ..
      | aggregate key items => exact ensures_fail _
      | totalCount key => exact ensures_pure ⟨Nat.zero_le _, rfl⟩
      | pageInfo key fields => exact ensures_pure ⟨Nat.zero_le _, nesting_pageInfo hb fields⟩
      | typename key typeName => exact ensures_pure ⟨Nat.zero_le _, rfl⟩
    · exact ih.bind fun more hmore => ensures_pure (Named.cons _ hfirst.1 hfirst.2 hmore _)

theorem nesting_branchKeys (sort : List SortKey) (columns : List String) :
    Ensures (Named 2) (branchKeys ctx sort columns) := by
  refine (nesting_sortValues _).bind fun r hr => ensures_pure ⟨hr.1, fun entry hentry => ?_⟩
  obtain ⟨key, hkey, heq⟩ := List.mem_map.mp (List.of_mem_zip hentry).2
  exact heq ▸ hr.2 key hkey

/-- The union of branches stands in one call. -/
theorem nesting_unionCall {composite column : String} {bodies : List (List Clause)} {union : Clause}
    (h : unionCall composite bodies column = .ok union)
    (hbodies : ∀ body ∈ bodies, Clause.nestingOf body ≤ n) : union.nesting ≤ n + 1 := by
  unfold unionCall at h
  split at h
  · cases h
    simp [Clause.nesting, Expr.nesting, Expr.nestingOf]
  · split at h
    · cases h
    · cases h
      have hunion := nestingOfBranches_le.mpr hbodies
      rw [nesting_call, nestingOf_cons, nestingOf_nil, Clause.nesting]
      omega

end Connections

section Fields

theorem nesting_storedItem (name key : String) (a : Attribute) :
    ∀ key' e, storedItem name key a = .entry key' e → e.nesting = 0 := by
  intro key' e h
  unfold storedItem at h
  dsimp only at h
  split at h
  · cases h
  · cases h
    unfold shownValue
    split
    · rfl
    · split
      · rfl
      · split <;> rfl

/-- Entries of a projection without blocks. -/
def BlocklessItems (items : List (MapItem Expr)) : Prop :=
  ∀ key e, .entry key e ∈ items → e.nesting = 0

theorem nesting_projection (name : String) {items : List (MapItem Expr)}
    (h : BlocklessItems items) : (Expr.projection name items).nesting = 0 :=
  Nat.le_zero.mp (nestingOfProjection_le.mpr fun key e hmem => Nat.le_of_eq (h key e hmem))

theorem nesting_edgeProjection {ctx : Context} {fields : List EdgeField} {e : Expr}
    (h : edgeProjection ctx fields = .ok e) : e.nesting = 0 := by
  simp only [edgeProjection, except_bind_ok, except_pure_ok] at h
  obtain ⟨edge, _, rfl⟩ := h
  refine nesting_projection edge fun key value hitem => ?_
  obtain ⟨field, _, hfield⟩ := List.mem_map.mp hitem
  cases field with
  | stored own a => exact nesting_storedItem edge own a key value hfield
  | typename own typeName =>
    cases hfield
    rfl

theorem nesting_nestedCall {ctx : Context} {k : Nat} {body : Context → Build (List Clause)}
    (h : ∀ inner, Ensures (fun cs => Clause.nestingOf cs ≤ k) (body inner)) :
    Ensures (fun r => Clause.nestingOf r.1 ≤ k + 1 ∧ r.2.nesting = 0) (nestedCall ctx body) := by
  refine ensures_skip _ fun edge => ensures_skip _ fun node => ensures_skip _ fun result => ?_
  exact (h _).bind fun clauses hclauses => ensures_pure ⟨by simpa using hclauses, rfl⟩

theorem nesting_readResult (ctx : Context) (scope : Scope) {projection : Expr}
    (h : projection.nesting = 0) : Clause.nestingOf (readResult ctx scope projection) = 0 := by
  unfold readResult
  split <;> simp [h, nesting_collected, Expr.nesting, Expr.nestingOfColumns, Column.named]

theorem nesting_compositeResult (ctx : Context) (relationship : Option Relationship)
    (column : String) : (compositeResult ctx relationship column).nesting = 0 := by
  unfold compositeResult
  split <;> simp [nesting_collected, Expr.nesting]

/-- A node that opens a scope is one level above its children. -/
theorem depthOf_children {label : String} {os : List Outline} {n : Nat}
    (h : (Outline.node label true os).depth ≤ n) : ∃ m, n = m + 1 ∧ Outline.depthOf os ≤ m := by
  rw [Outline.depth, if_pos rfl] at h
  exact ⟨n - 1, by omega, by omega⟩

theorem shallow_read {n : Nat} {scope : Scope} {fields : List Field} {sort : List SortKey}
    {page : Page} (h : Outline.depthOf (Field.readOutlines ⟨scope, fields, sort, page⟩) ≤ n) :
    Shallow n scope ∧ Outline.depthOf (Field.outlines fields) ≤ n := by
  simp only [Field.readOutlines, Outline.depthOf_append, Nat.max_le] at h
  exact ⟨⟨h.1.1.2, h.1.2⟩, h.1.1.1⟩

theorem shallow_aggregate {n : Nat} {a : Aggregate} (h : a.outline.depth ≤ n) :
    ∃ m, n = m + 1 ∧ Shallow m a.scope := by
  obtain ⟨m, rfl, hchildren⟩ := depthOf_children h
  simp only [Outline.depthOf_append, Nat.max_le] at hchildren
  exact ⟨m, rfl, hchildren.1.1, hchildren.1.2⟩

mutual
theorem nesting_item {n : Nat} (ctx : Context) (f : Field) (h : f.outline.depth ≤ n) :
    Ensures (fun r => Clause.nestingOf r.1 ≤ 2 * n + 2 ∧
      ∀ key e, r.2 = .entry key e → e.nesting = 0) (Field.item ctx f) := by
  match f with
  | .stored key a => exact ensures_pure ⟨Nat.zero_le _, nesting_storedItem _ _ _⟩
  | .typename key typeName =>
    refine ensures_pure ⟨Nat.zero_le _, fun key' e he => ?_⟩
    cases he
    rfl
  | .computed key a =>
    refine ensures_skip _ fun name => (nesting_computedCall a name).bind fun call hcall => ?_
    refine ensures_pure ⟨?_, fun key' e he => ?_⟩
    · simp only [nestingOf_cons, nestingOf_nil]
      omega
    · cases he
      rfl
  | .lookup key l =>
    have hl : (Field.lookupOutline l).depth ≤ n := by
      simpa [Field.outline, Outline.depth, Outline.depthOf] using h
    refine (nesting_nestedCall fun inner => nesting_lookupClauses inner l hl).bind fun r hr => ?_
    refine ensures_pure ⟨hr.1, fun key' e he => ?_⟩
    cases he
    exact hr.2
  | .aggregate key a =>
    have ha : a.outline.depth ≤ n := by
      simpa [Field.outline, Outline.depth, Outline.depthOf] using h
    obtain ⟨m, rfl, hscope⟩ := shallow_aggregate ha
    refine (nesting_nestedCall fun inner => nesting_aggregateClauses hscope).bind fun r hr => ?_
    refine ensures_pure ⟨Nat.le_trans hr.1 (by omega), fun key' e he => ?_⟩
    cases he
    exact hr.2
theorem nesting_items {n : Nat} (ctx : Context) (fields : List Field)
    (h : Outline.depthOf (Field.outlines fields) ≤ n) :
    Ensures (fun r => Clause.nestingOf r.1 ≤ 2 * n + 2 ∧ BlocklessItems r.2)
      (Field.items ctx fields) := by
  match fields with
  | [] => exact ensures_pure ⟨Nat.zero_le _, by simp [BlocklessItems]⟩
  | f :: rest =>
    simp only [Field.outlines, Outline.depthOf, Nat.max_le] at h
    refine (nesting_item ctx f h.1).bind fun first hfirst => ?_
    refine (nesting_items ctx rest h.2).bind fun more hmore => ensures_pure ⟨?_, fun key e he => ?_⟩
    · rw [nestingOf_append]
      exact Nat.max_le.mpr ⟨hfirst.1, hmore.1⟩
    · rcases List.mem_cons.mp he with he | he
      · exact hfirst.2 key e he.symm
      · exact hmore.2 key e he
theorem nesting_lookupClauses {n : Nat} (ctx : Context) (l : Lookup Field)
    (h : (Field.lookupOutline l).depth ≤ n) :
    Ensures (fun cs => Clause.nestingOf cs ≤ 2 * n + 1) (Field.lookupClauses ctx l) := by
  match l with
  | .read ⟨scope, fields, sort, page⟩ =>
    obtain ⟨m, rfl, hchildren⟩ := depthOf_children h
    obtain ⟨hscope, hfields⟩ := shallow_read hchildren
    refine (nesting_distinctNodes hscope).bind fun found hfound => ?_
    refine (nesting_arranged sort page).bind fun window hwindow => ?_
    refine (nesting_items ctx fields hfields).bind fun r hr => ensures_pure ?_
    have hresult := nesting_readResult ctx scope (nesting_projection ctx.subject hr.2)
    simp only [nestingOf_append, hresult]
    omega
  | .connection ⟨scope, sort, page, items⟩ =>
    obtain ⟨m, rfl, hchildren⟩ := depthOf_children h
    simp only [Outline.depthOf_append, Nat.max_le] at hchildren
    refine (nesting_scopeMatch ⟨hchildren.1.1.1, hchildren.1.1.2⟩).bind fun found hfound => ?_
    refine (nesting_edgeList (nesting_edgeMap ctx) items page).bind fun l hl => ?_
    refine (nesting_entries ctx l.2 hl.2 sort items hchildren.2).bind fun r hr => ensures_pure ?_
    have hcalls := hr.1
    simp only [nestingOf_append, nestingOf_cons, nestingOf_nil, nesting_give, nesting_map hr.2,
      hl.1]
    omega
  | .composite ⟨composite, relationship, branches, sort, page⟩ =>
    obtain ⟨m, rfl, hchildren⟩ := depthOf_children h
    simp only [Outline.depthOf_append, Nat.max_le] at hchildren
    refine ensures_skip _ fun column => ensures_skip _ fun columns => ?_
    refine (nesting_branches ctx column columns true branches hchildren.2).bind
      fun bodies hbodies => ?_
    refine (ensures_lift fun union hunion => nesting_unionCall hunion hbodies).bind
      fun union hunion => ?_
    refine (nesting_mergedWindow column sort columns page).bind fun window hwindow => ?_
    refine ensures_pure ?_
    simp only [List.cons_append, nestingOf_append, nestingOf_cons, nestingOf_nil,
      nesting_compositeResult, hwindow]
    omega
  | .compositeConnection ⟨composite, relationship, branches, sort, page, items⟩ =>
    obtain ⟨m, rfl, hchildren⟩ := depthOf_children h
    simp only [Outline.depthOf_append, Nat.max_le] at hchildren
    refine ensures_skip _ fun column => ensures_skip _ fun columns => ?_
    refine (nesting_connectionBranches ctx column columns true branches hchildren.1.2).bind
      fun bodies hbodies => ?_
    refine (ensures_lift fun union hunion => nesting_unionCall hunion hbodies).bind
      fun union hunion => ?_
    refine (nesting_edgeList rfl items page).bind fun l hl => ?_
    refine (nesting_mergedEntries hl.2 composite.name sort columns items).bind fun r hr => ?_
    refine ensures_pure ?_
    have hcalls := hr.1
    simp only [List.cons_append, nestingOf_append, nestingOf_cons, nestingOf_nil, nesting_give,
      nesting_map hr.2, hl.1]
    omega
theorem nesting_entries {n : Nat} (ctx : Context) (l : EdgeList) (hb : l.bounds.All (·.nesting = 0))
    (sort : List SortKey) (items : List (ConnectionItem Field))
    (h : Outline.depthOf (Field.itemOutlines items) ≤ n) :
    Ensures (Named (2 * n + 3)) (Field.entries ctx l sort items) := by
  match items with
  | [] => exact ensures_pure named_nil
  | .edges key node properties typename :: rest =>
    simp only [Field.itemOutlines, Outline.depthOf_append, Nat.max_le] at h
    refine ensures_skip _ fun result => ensures_skip _ fun edge => ?_
    refine (nesting_orderedWindow sort hb).bind fun window hwindow => ?_
    refine (nesting_nodeEntry ctx node h.1.1).bind fun shown hshown => ?_
    refine (ensures_lift (p := fun entries => ∀ entry ∈ entries, entry.2.nesting = 0) ?_).bind
      fun entries hentries => ?_
    · match properties with
      | none =>
        intro entries hentries
        rw [except_pure_ok] at hentries
        simp [← hentries]
      | some (own, fields) =>
        intro entries hentries
        simp only [except_bind_ok, except_pure_ok] at hentries
        obtain ⟨e, he, rfl⟩ := hentries
        exact List.forall_mem_singleton.mpr (nesting_edgeProjection he)
    · refine (nesting_entries ctx l hb sort rest h.2).bind fun more hmore => ensures_pure ?_
      refine Named.cons [_] (e := .var result) ?_ rfl hmore key
      have hresult := nesting_edgesResult
        (List.forall_mem_append.mpr ⟨hshown.2, hentries⟩) typename result
      have hcalls := hshown.1
      simp only [nestingOf_cons, nestingOf_nil, nesting_call, nestingOf_append, nesting_unpackEdge,
        hresult]
      omega
  | .aggregate key aggregates :: rest =>
    simp only [Field.itemOutlines, Outline.depthOf_append, Nat.max_le] at h
    refine (nesting_aggregateEntries (nesting_edgeMeasureCall l.edges) aggregates).bind
      fun group hgroup => ?_
    refine (nesting_entries ctx l hb sort rest h.2).bind fun more hmore => ensures_pure ?_
    exact Named.cons _ (Nat.le_trans hgroup.1 (by omega)) (nesting_map hgroup.2) hmore key
  | .totalCount key :: rest =>
    refine (nesting_entries ctx l hb sort rest h).bind fun more hmore => ensures_pure ?_
    exact Named.cons [] (Nat.zero_le _) rfl hmore key
  | .pageInfo key fields :: rest =>
    refine (nesting_entries ctx l hb sort rest h).bind fun more hmore => ensures_pure ?_
    exact Named.cons [] (Nat.zero_le _) (nesting_pageInfo hb fields) hmore key
  | .typename key typeName :: rest =>
    refine (nesting_entries ctx l hb sort rest h).bind fun more hmore => ensures_pure ?_
    exact Named.cons [] (Nat.zero_le _) rfl hmore key
theorem nesting_nodeEntry {n : Nat} (ctx : Context) (node : Option (String × List Field))
    (h : Outline.depthOf (Field.nodeOutlines node) ≤ n) :
    Ensures (Named (2 * n + 2)) (Field.nodeEntry ctx node) := by
  match node with
  | none => exact ensures_pure named_nil
  | some (key, fields) =>
    refine (nesting_items ctx fields h).bind fun r hr => ensures_pure ⟨hr.1, ?_⟩
    exact List.forall_mem_singleton.mpr (nesting_projection _ hr.2)
theorem nesting_branches {n : Nat} (ctx : Context) (column : String) (columns : List String)
    (isFirst : Bool) (branches : List (Read Field))
    (h : Outline.depthOf (Field.branchOutlines branches) ≤ n) :
    Ensures (fun bodies => ∀ body ∈ bodies, Clause.nestingOf body ≤ 2 * n + 2)
      (Field.branches ctx column columns isFirst branches) := by
  match branches with
  | [] => exact ensures_pure (by simp)
  | ⟨scope, fields, sort, page⟩ :: rest =>
    simp only [Field.branchOutlines, Outline.depthOf_append, Nat.max_le] at h
    obtain ⟨hscope, hfields⟩ := shallow_read h.1
    refine ensures_skip _ fun own => nesting_importParent.bind fun start hstart => ?_
    refine (nesting_distinctNodes hscope).bind fun found hfound => ?_
    refine (nesting_items own fields hfields).bind fun shown hshown => ?_
    refine (nesting_branchKeys sort columns).bind fun keys hkeys => ?_
    refine (nesting_branches ctx column columns false rest h.2).bind fun bodies hbodies => ?_
    refine ensures_pure (List.forall_mem_cons.mpr ⟨?_, hbodies⟩)
    have hprojection := nesting_projection own.subject hshown.2
    have hcolumns : Expr.nestingOfColumns (Column.named (.projection own.subject shown.2) column ::
        keys.2.map fun (name, e) => Column.named e name) = 0 := by
      refine Nat.le_zero.mp (nestingOfColumns_le.mpr (List.forall_mem_cons.mpr
        ⟨Nat.le_of_eq hprojection, List.forall_mem_map.mpr fun entry hentry => ?_⟩))
      exact Nat.le_of_eq (hkeys.2 entry hentry)
    have hcalls := hshown.1
    have hkeyCalls := hkeys.1
    simp only [nestingOf_append, nestingOf_cons, nestingOf_nil, nesting_giveAll, hcolumns, hstart]
    omega
theorem nesting_connectionBranches {n : Nat} (ctx : Context) (column : String)
    (columns : List String) (isFirst : Bool) (branches : List (ConnectionBranch Field))
    (h : Outline.depthOf (Field.connectionBranchOutlines branches) ≤ n) :
    Ensures (fun bodies => ∀ body ∈ bodies, Clause.nestingOf body ≤ 2 * n + 2)
      (Field.connectionBranches ctx column columns isFirst branches) := by
  match branches with
  | [] => exact ensures_pure (by simp)
  | ⟨⟨scope, fields, sort, page⟩, edgeFields⟩ :: rest =>
    simp only [Field.connectionBranchOutlines, Outline.depthOf_append, Nat.max_le] at h
    obtain ⟨hscope, hfields⟩ := shallow_read h.1.1
    refine ensures_skip _ fun own => nesting_importParent.bind fun start hstart => ?_
    refine (nesting_scopeMatch hscope).bind fun found hfound => ?_
    refine (nesting_items own fields hfields).bind fun shown hshown => ?_
    refine (ensures_lift (p := fun entries => ∀ entry ∈ entries, entry.2.nesting = 0) ?_).bind
      fun properties hproperties => ?_
    · intro properties hproperties
      split at hproperties
      · rw [except_pure_ok] at hproperties
        simp [← hproperties]
      · simp only [except_bind_ok, except_pure_ok] at hproperties
        obtain ⟨e, he, rfl⟩ := hproperties
        exact List.forall_mem_singleton.mpr (nesting_edgeProjection he)
    refine (nesting_branchKeys sort columns).bind fun keys hkeys => ?_
    refine (nesting_connectionBranches ctx column columns false rest h.2).bind
      fun bodies hbodies => ?_
    refine ensures_pure (List.forall_mem_cons.mpr ⟨?_, hbodies⟩)
    have hmap : (Expr.map (("node", .projection own.subject shown.2) ::
        properties ++ keys.2)).nesting = 0 :=
      nesting_map (List.forall_mem_cons.mpr ⟨nesting_projection own.subject hshown.2,
        List.forall_mem_append.mpr ⟨hproperties, hkeys.2⟩⟩)
    have hcalls := hshown.1
    have hkeyCalls := hkeys.1
    simp only [nestingOf_append, nestingOf_cons, nestingOf_nil, nesting_give, hmap, hstart]
    omega
end

end Fields

section Changes

variable {ctx : Context} {n : Nat}

theorem nestingOf_andThen (before after : List Clause) :
    Clause.nestingOf (andThen before after) =
      max (Clause.nestingOf before) (Clause.nestingOf after) := by
  unfold andThen
  split <;> simp

theorem nesting_assigned (name : String) (assignments : List Assignment) :
    Ensures (fun cs => Clause.nestingOf cs = 0) (assigned name assignments) := by
  have hpairs : Ensures (fun pairs => Expr.nestingOfPairs pairs = 0)
      (assignmentList name assignments) := by
    induction assignments with
    | nil => exact ensures_pure rfl
    | cons a rest ih =>
      refine Ensures.bind (p := fun pair => pair.1.nesting = 0 ∧ pair.2.nesting = 0) ?_
        fun pair hpair => ih.bind fun pairs hpairs => ensures_pure ?_
      · exact (nesting_typedParam ..).bind fun value hvalue => ensures_pure ⟨rfl, hvalue⟩
      · obtain ⟨left, right⟩ := pair
        simp [Expr.nestingOfPairs, hpair, hpairs]
  refine hpairs.bind fun pairs hpairs => ensures_pure ?_
  split
  · rfl
  · simp [Clause.nesting, hpairs]

theorem nesting_linkedNodes (ctx child : Context) (link : Link) {filter : Option Condition}
    (h : Outline.depthOf (Condition.optionOutline filter) ≤ n) :
    Ensures (fun cs => Clause.nestingOf cs ≤ n + 2) (linkedNodes ctx child link filter) :=
  ensures_skip _ fun _ => nesting_filteredMatch _ h

theorem nesting_counted (ctx : Context) (body : List Clause) (result : String) :
    (counted ctx body result).nesting = Clause.nestingOf body + 1 := by
  simp [counted, Expr.nesting, Expr.nestingOf]

@[simp] theorem nesting_create (pattern : Pattern) : (Clause.create pattern).nesting = 0 := by
  rw [Clause.nesting]

@[simp] theorem nesting_merge (pattern : Pattern) : (Clause.merge pattern).nesting = 0 := by
  rw [Clause.nesting]

@[simp] theorem nesting_delete (detach : Bool) (names : List String) :
    (Clause.delete detach names).nesting = 0 := by
  rw [Clause.nesting]

mutual
theorem nesting_clause {n : Nat} (ctx : Context) (m : Mutation) (h : m.outline.depth ≤ n) :
    Ensures (fun c => c.nesting ≤ 2 * n + 1) (Mutation.clause ctx m) := by
  match m with
  | .create link ⟨assignments, nested, validations⟩ edgeAssignments =>
    obtain ⟨d, rfl, hchildren⟩ := depthOf_children h
    simp only [Outline.depthOf_append, Nat.max_le] at hchildren
    refine ensures_skip _ fun edge => ensures_skip _ fun node => ensures_skip _ fun result => ?_
    refine (nesting_assigned node assignments).bind fun own hown => ?_
    refine (nesting_assigned edge edgeAssignments).bind fun onEdge honEdge => ?_
    refine (nesting_after (k := 2 * d + 2) _ ?_ nested hchildren.2 (by omega)).bind
      fun written hwritten => ?_
    · simp [hown, honEdge]
    refine (nesting_validated hchildren.1).bind fun checks hchecks => ensures_pure ?_
    rw [nesting_counted, nestingOf_andThen]
    omega
  | .connect link filter edgeAssignments validations =>
    obtain ⟨d, rfl, hchildren⟩ := depthOf_children h
    simp only [Outline.depthOf_append, Nat.max_le] at hchildren
    refine ensures_skip _ fun edge => ensures_skip _ fun node => ensures_skip _ fun result => ?_
    refine (nesting_filteredMatch _ hchildren.1).bind fun found hfound => ?_
    refine (nesting_assigned edge edgeAssignments).bind fun onEdge honEdge => ?_
    refine (nesting_validated hchildren.2).bind fun checks hchecks => ensures_pure ?_
    simp only [nesting_counted, nestingOf_andThen, nestingOf_append, nestingOf_cons, nesting_merge,
      honEdge]
    omega
  | .disconnect link filter validations =>
    obtain ⟨d, rfl, hchildren⟩ := depthOf_children h
    simp only [Outline.depthOf_append, Nat.max_le] at hchildren
    refine ensures_skip _ fun edge => ensures_skip _ fun node => ensures_skip _ fun result => ?_
    refine (nesting_linkedNodes _ _ _ hchildren.1).bind fun found hfound => ?_
    refine (nesting_validated hchildren.2).bind fun checks hchecks => ensures_pure ?_
    simp only [nesting_counted, nestingOf_append, nestingOf_cons, nestingOf_nil, nesting_delete]
    omega
  | .update link filter before nodeAssignments edgeAssignments after =>
    obtain ⟨d, rfl, hchildren⟩ := depthOf_children h
    simp only [Outline.depthOf_append, Nat.max_le] at hchildren
    refine ensures_skip _ fun edge => ensures_skip _ fun node => ensures_skip _ fun result => ?_
    refine (nesting_linkedNodes _ _ _ hchildren.1.1).bind fun found hfound => ?_
    refine (nesting_validated hchildren.1.2).bind fun first hfirst => ?_
    refine (nesting_assigned node nodeAssignments).bind fun own hown => ?_
    refine (nesting_assigned edge edgeAssignments).bind fun onEdge honEdge => ?_
    refine (nesting_validated hchildren.2).bind fun last hlast => ensures_pure ?_
    simp only [nesting_counted, nestingOf_andThen, nestingOf_append, hown, honEdge]
    omega
  | .delete link filter before nested =>
    obtain ⟨d, rfl, hchildren⟩ := depthOf_children h
    simp only [Outline.depthOf_append, Nat.max_le] at hchildren
    refine ensures_skip _ fun edge => ensures_skip _ fun node => ensures_skip _ fun result => ?_
    refine (nesting_linkedNodes _ _ _ hchildren.1.1).bind fun found hfound => ?_
    refine (nesting_validated hchildren.1.2).bind fun first hfirst => ?_
    refine (nesting_after (k := 2 * d + 2) _ ?_ nested hchildren.2 (by omega)).bind
      fun clauses hclauses => ensures_pure ?_
    · rw [nestingOf_append]
      omega
    · simp only [nesting_counted, nestingOf_andThen, nestingOf_cons, nestingOf_nil, nesting_delete]
      omega
theorem nesting_after {n k : Nat} (ctx : Context) {before : List Clause}
    (hbefore : Clause.nestingOf before ≤ k) (ms : List Mutation)
    (h : Outline.depthOf (Mutation.outlines ms) ≤ n) (hk : 2 * n + 1 ≤ k) :
    Ensures (fun cs => Clause.nestingOf cs ≤ k) (Mutation.after ctx before ms) := by
  match ms with
  | [] => exact ensures_pure hbefore
  | m :: rest =>
    simp only [Mutation.outlines, Outline.depthOf, Nat.max_le] at h
    refine (nesting_clause ctx m h.1).bind fun clause hclause => ?_
    refine nesting_after ctx ?_ rest h.2 hk
    rw [nestingOf_andThen, nestingOf_cons, nestingOf_nil]
    omega
end

theorem nesting_newNode (e : Entity) {node : NewNode Mutation}
    (h : Outline.depthOf node.outlines ≤ n) :
    Ensures (fun cs => Clause.nestingOf cs ≤ 2 * n + 2) (newNode ctx e node) := by
  simp only [NewNode.outlines, Outline.depthOf_append, Nat.max_le] at h
  refine (nesting_assigned ctx.subject node.assignments).bind fun own hown => ?_
  refine (nesting_after (k := 2 * n + 2) ctx ?_ node.nested h.2 (by omega)).bind
    fun written hwritten => ?_
  · simp [hown]
  refine (nesting_validated h.1).bind fun checks hchecks => ensures_pure ?_
  rw [nestingOf_andThen]
  omega

theorem nesting_newNodes (e : Entity) (isFirst : Bool) {nodes : List (NewNode Mutation)}
    (h : Outline.depthOf (nodes.flatMap NewNode.outlines) ≤ n) :
    Ensures (fun r => Clause.nestingOf r.1 ≤ 2 * n + 3) (newNodes ctx e isFirst nodes) := by
  induction nodes generalizing isFirst with
  | nil => exact ensures_pure (Nat.zero_le _)
  | cons node rest ih =>
    rw [List.flatMap_cons, Outline.depthOf_append, Nat.max_le] at h
    refine ensures_skip _ fun own => (nesting_newNode e h.1).bind fun body hbody => ?_
    refine (ih false h.2).bind fun more hmore => ensures_pure ?_
    have hgive : (Clause.giveAll [Column.var own.subject]).nesting = 0 := by
      simp [Expr.nestingOfColumns, Column.var, Expr.nesting]
    simp only [nestingOf_cons, nesting_call, nestingOf_append, nestingOf_nil, hgive]
    omega

theorem nesting_projections {fields : List Field}
    (h : Outline.depthOf (Field.outlines fields) ≤ n) (contexts : List Context) :
    Ensures (fun r => Clause.nestingOf r.1 ≤ 2 * n + 2 ∧ ∀ e ∈ r.2, e.nesting = 0)
      (projections fields contexts) := by
  induction contexts with
  | nil => exact ensures_pure ⟨Nat.zero_le _, by simp⟩
  | cons ctx rest ih =>
    refine (nesting_items ctx fields h).bind fun first hfirst => ih.bind fun more hmore => ?_
    refine ensures_pure ⟨?_, List.forall_mem_cons.mpr ⟨nesting_projection _ hfirst.2, hmore.2⟩⟩
    rw [nestingOf_append]
    exact Nat.max_le.mpr ⟨hfirst.1, hmore.1⟩

/-- Blocks stand at most twice as deep in one another as the scopes of the plan, and once more. -/
theorem nesting_operationClauses {o : Operation} (h : o.depth ≤ n) :
    Ensures (fun cs => Clause.nestingOf cs ≤ 2 * n + 1) (operationClauses ctx o) := by
  cases o with
  | lookup l => exact nesting_lookupClauses ctx l h
  | aggregate a =>
    obtain ⟨m, rfl, hscope⟩ := shallow_aggregate h
    exact (nesting_aggregateClauses hscope).mono fun cs hcs => by omega
  | create c =>
    obtain ⟨m, rfl, hchildren⟩ := depthOf_children h
    simp only [Outline.depthOf_append, Nat.max_le] at hchildren
    refine (nesting_newNodes c.entity true hchildren.2).bind fun made hmade => ?_
    refine (nesting_projections hchildren.1 _).bind fun shown hshown => ensures_pure ?_
    have hlist : (Expr.list shown.2).nesting = 0 :=
      Nat.le_zero.mp (nestingOf_le.mpr fun e he => Nat.le_of_eq (hshown.2 e he))
    have hcalls := hshown.1
    simp only [nestingOf_append, nestingOf_cons, nestingOf_nil, nesting_give, hlist]
    omega
  | update u =>
    obtain ⟨m, rfl, hchildren⟩ := depthOf_children h
    simp only [Outline.depthOf_append, Nat.max_le] at hchildren
    obtain ⟨⟨⟨⟨hfilter, hbefore⟩, hnested⟩, hafter⟩, hfields⟩ := hchildren
    refine (nesting_filteredMatch _ hfilter).bind fun found hfound => ?_
    refine (nesting_validated hbefore).bind fun first hfirst => ?_
    refine (nesting_assigned ctx.subject u.assignments).bind fun own hown => ?_
    refine (nesting_after (k := 2 * m + 2) ctx ?_ u.nested hnested (by omega)).bind
      fun written hwritten => ?_
    · simp only [nestingOf_append, hown]
      omega
    refine (nesting_validated hafter).bind fun last hlast => ?_
    refine (nesting_items ctx u.fields hfields).bind fun shown hshown => ensures_pure ?_
    have hcalls := hshown.1
    have hcollected : (Expr.apply "collect"
        [.distinct (.projection ctx.subject shown.2)]).nesting = 0 := by
      rw [Expr.nesting, Expr.nestingOf, Expr.nestingOf, Expr.nesting,
        nesting_projection ctx.subject hshown.2, Nat.max_self]
    simp only [nestingOf_append, nestingOf_andThen, nestingOf_cons, nestingOf_nil, nesting_give,
      hcollected]
    omega
  | delete d =>
    obtain ⟨m, rfl, hchildren⟩ := depthOf_children h
    simp only [Outline.depthOf_append, Nat.max_le] at hchildren
    refine (nesting_filteredMatch _ hchildren.1.1).bind fun found hfound => ?_
    refine (nesting_validated hchildren.1.2).bind fun first hfirst => ?_
    refine (nesting_after (k := 2 * m + 2) ctx ?_ d.nested hchildren.2 (by omega)).bind
      fun clauses hclauses => ensures_pure ?_
    · rw [nestingOf_append]
      omega
    · simp only [nestingOf_andThen, nestingOf_cons, nestingOf_nil, nesting_delete]
      omega

end Changes

end GraphSelection.Program

namespace GraphSelection

open Cypher Plan Resolve Program

theorem Resolve.Setup.depth_le_of_plan {s : Setup} {r : Request} {o : Operation}
    (h : s.plan r = .ok o) : o.depth ≤ s.settings.maxDepth := by
  unfold Setup.plan at h
  rw [except_bind_ok] at h
  obtain ⟨o', _, hguard⟩ := h
  by_cases hdepth : s.settings.maxDepth < o'.depth
  · simp [hdepth, throw, throwThe, MonadExceptOf.throw, bind, Except.bind] at hguard
  · simp [hdepth, pure, Except.pure] at hguard
    subst hguard
    omega

/-- Calls and blocks of a program stand in one another at most twice as deep as the scopes of its
plan, and once more; the limit on the depth of plans is therefore one on the nesting of programs. -/
theorem compile_nesting (s : Setup) (r : Request) (p : Compiled) (h : compile s r = .ok p) :
    ∃ o, s.plan r = .ok o ∧ Clause.nestingOf p.clauses ≤ 2 * o.depth + 1 ∧
      Clause.nestingOf p.clauses ≤ 2 * s.settings.maxDepth + 1 := by
  obtain ⟨o, t, hplan, hprogram, _, _⟩ := Scoping.compile_ok h
  have hnesting : Ensures (fun cs => Clause.nestingOf cs ≤ 2 * o.depth + 1)
      (programOf s.terms o) :=
    ensures_skip _ fun _ => nesting_operationClauses (Nat.le_refl _)
  have hbound := hnesting.run {} p.clauses t hprogram
  have hdepth := Setup.depth_le_of_plan hplan
  exact ⟨o, hplan, hbound, by omega⟩

/-- The program of the famous has calls within calls. -/
theorem famous_nesting :
    ∃ p o, compile Stage.setup Stage.famous = .ok p ∧ Stage.setup.plan Stage.famous = .ok o ∧
      Clause.nestingOf p.clauses = 2 ∧ Clause.nestingOf p.clauses ≤ 2 * o.depth + 1 := by
  have hsome : (compile Stage.setup Stage.famous).toOption.any
      (fun p => decide (Clause.nestingOf p.clauses = 2)) = true := by decide +kernel
  obtain ⟨p, h, hlevels⟩ := exists_of_any hsome
  obtain ⟨o, hplan, hbound, _⟩ := compile_nesting Stage.setup Stage.famous p h
  exact ⟨p, o, h, hplan, of_decide_eq_true hlevels, hbound⟩

end GraphSelection
