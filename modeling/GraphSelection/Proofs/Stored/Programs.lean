import GraphSelection.Proofs.Stored.Scopes
import GraphSelection.Proofs.Total

/-!
What whole programs access. Every stored property that a program reads or writes, at any depth, is
that of a site of its plan. Computed attributes of nodes have no sites, and those of edges none that
measure or assign; both come from their statements or are refused. But attributes of edges are
compared, sorted by and shown by their properties, computed or not.
-/
namespace GraphSelection.Program

open Cypher Plan

section Connections

variable {ctx : Context} {sites : List Site} {ok : Access → Prop}

variable (ok) in
theorem only_edgeMap (ctx : Context) : (edgeMap ctx).Only ok := by
  refine only_map.mpr fun entry hentry => ?_
  rcases List.mem_cons.mp hentry with rfl | hentry
  · exact only_var _
  · obtain ⟨r, _, rfl⟩ := Option.map_eq_some_iff.mp (Option.mem_toList.mp hentry)
    exact only_var r

variable (ok) in
theorem only_edgeList {φ : Type} {edge : Expr} (h : edge.Only ok)
    (items : List (ConnectionItem φ)) (page : Page) :
    Ensures (fun r => AllOnly ok r.1 ∧ r.2.bounds.All (Expr.Only ok))
      (edgeList edge items page) := by
  have hcollect : ∀ edges total, AllOnly ok (collectEdges edge edges total) := by
    simp [collectEdges, Column.named, Column.var, h]
  refine ensures_skip _ fun edges => ensures_skip _ fun total => ?_
  split
  · exact (ensures_bounds (P := Expr.Only ok) only_param page).bind fun b hb =>
      ensures_pure ⟨hcollect edges total, hb⟩
  · exact ensures_pure ⟨hcollect edges total, Bounds.all_whole⟩

theorem only_pageInfo {l : EdgeList} (hb : l.bounds.All (Expr.Only ok))
    (fields : List PageInfoField) : (Expr.map (fields.map l.pageInfo)).Only ok := by
  obtain ⟨edges, total, skip, limit⟩ := l
  obtain ⟨hskip, hlimit⟩ := hb
  refine only_map.mpr fun entry hentry => ?_
  obtain ⟨field, _, rfl⟩ := List.mem_map.mp hentry
  cases field <;> cases skip <;> cases limit <;>
    simp_all [EdgeList.pageInfo, EdgeList.hasNextPage, EdgeList.hasPreviousPage, Expr.bool,
      Expr.int, Expr.string]

/-- A variable that holds an edge of a list. -/
def IsEdge (name : String) : Prop := ∃ n : Nat, name = "edge" ++ toString n

theorem IsEdge.part {edge key : String} (h : IsEdge edge)
    (hkey : key ∈ ["node", "relationship", "properties"]) :
    (Expr.propertyOf edge key).Only (Served sites) := by
  obtain ⟨n, rfl⟩ := h
  exact (only_propertyOf ..).mpr (.inl (.part n hkey))

theorem only_unpackEdge (edges : String) {edge : String} (h : IsEdge edge) :
    AllOnly (Served sites) (unpackEdge ctx edges edge) := by
  have hnode : (Expr.propertyOf edge "node").Only (Served sites) := h.part (by simp)
  have hedge : (Expr.propertyOf edge "relationship").Only (Served sites) := h.part (by simp)
  unfold unpackEdge
  cases ctx.relationship <;> simp [Column.named, hnode, hedge]

theorem only_edgeMeasureCall (edges : String) {m : Measure} (hm : m.sites ⊆ sites)
    (result : String) :
    Ensures (Clause.Only (Served sites)) (edgeMeasureCall ctx edges m result) := by
  refine (ensures_fresh "edge").bind fun edge hedge => ?_
  refine (ensures_lift fun reduced h => only_measured hm h).bind fun reduced hreduced => ?_
  exact ensures_pure (by simp [only_unpackEdge edges hedge, hreduced])

theorem only_edgesResult {entries : List (String × Expr)} (h : ∀ p ∈ entries, p.2.Only ok)
    (typename : Option (String × String)) (result : String) :
    (edgesResult entries typename result).Only ok := by
  cases typename <;> simpa [edgesResult, Expr.string, or_imp, forall_and] using h

theorem ensures_sortColumns (sort : List SortKey) :
    Ensures (fun columns => ∀ c ∈ columns, ∃ k : Nat, c = "sort" ++ toString k)
      (sortColumns sort) := by
  induction sort with
  | nil => exact ensures_pure (by simp)
  | cons key rest ih =>
    refine (ensures_fresh "sort").bind fun name hname => ih.bind fun names hnames => ?_
    exact ensures_pure (List.forall_mem_cons.mpr ⟨hname, hnames⟩)

theorem only_mergedOrder {value : String → Expr} {columns : List String}
    (h : ∀ c ∈ columns, (value c).Only ok) (sort : List SortKey) :
    ∀ key ∈ mergedOrder value sort columns, key.expression.Only ok := by
  intro key hkey
  obtain ⟨pair, hpair, rfl⟩ := List.mem_map.mp hkey
  exact h pair.2 (List.of_mem_zip hpair).2

variable (ok) in
theorem only_mergedWindow (column : String) (sort : List SortKey) (columns : List String)
    (page : Page) : Ensures (AllOnly ok) (mergedWindow column sort columns page) := by
  unfold mergedWindow
  split
  · exact ensures_pure allOnly_nil
  · refine (ensures_bounds (P := Expr.Only ok) only_param page).bind fun b hb => ensures_pure ?_
    have horder : ∀ key ∈ mergedOrder .var sort columns, key.expression.Only ok :=
      only_mergedOrder (fun c _ => only_var c) sort
    simpa [Column.var] using ⟨horder, hb.skip, hb.limit⟩

theorem only_mergedEdgesCall {l : EdgeList} (hb : l.bounds.All (Expr.Only (Served sites)))
    (sort : List SortKey) {columns : List String}
    (hcolumns : ∀ c ∈ columns, ∃ k : Nat, c = "sort" ++ toString k)
    (node properties : Option String) (typename : Option (String × String)) :
    Ensures (fun r => AllOnly (Served sites) r.1 ∧ r.2.Only (Served sites))
      (mergedEdgesCall l sort columns node properties typename) := by
  refine ensures_skip _ fun result => (ensures_fresh "edge").bind
    fun edge (hedge : IsEdge edge) => ?_
  have hnode : (Expr.propertyOf edge "node").Only (Served sites) := hedge.part (by simp)
  have hproperties : (Expr.propertyOf edge "properties").Only (Served sites) :=
    hedge.part (by simp)
  have hentries : ∀ p ∈ (node.map fun key => (key, Expr.propertyOf edge "node")).toList ++
      (properties.map fun key => (key, Expr.propertyOf edge "properties")).toList,
      p.2.Only (Served sites) := by
    cases node <;> cases properties <;> simp [hnode, hproperties]
  have horder : ∀ key ∈ mergedOrder (Expr.propertyOf edge) sort columns,
      key.expression.Only (Served sites) := by
    refine only_mergedOrder (fun c hc => ?_) sort
    obtain ⟨n, rfl⟩ := hedge
    obtain ⟨k, rfl⟩ := hcolumns c hc
    exact (only_propertyOf ..).mpr (.inl (.order n k))
  have hresult := only_edgesResult hentries typename result
  refine ensures_pure ⟨?_, only_var result⟩
  split
  · simpa using hresult
  · simpa [Column.var] using ⟨⟨horder, hb.skip, hb.limit⟩, hresult⟩

theorem only_mergedEntries {φ : Type} {l : EdgeList} (hb : l.bounds.All (Expr.Only (Served sites)))
    (composite : String) (sort : List SortKey) {columns : List String}
    (hcolumns : ∀ c ∈ columns, ∃ k : Nat, c = "sort" ++ toString k)
    (items : List (ConnectionItem φ)) :
    Ensures (OnlyEntries (Served sites)) (mergedEntries l composite sort columns items) := by
  induction items with
  | nil => exact ensures_pure onlyEntries_nil
  | cons item rest ih =>
    refine Ensures.bind (p := fun r => AllOnly (Served sites) r.1 ∧ r.2.Only (Served sites)) ?_
      fun first hfirst => ?_
    · cases item with
      | edges key node properties typename => exact only_mergedEdgesCall hb sort hcolumns ..
      | aggregate key items => exact ensures_fail _
      | totalCount key => exact ensures_pure ⟨allOnly_nil, only_var _⟩
      | pageInfo key fields => exact ensures_pure ⟨allOnly_nil, only_pageInfo hb fields⟩
      | typename key typeName => exact ensures_pure ⟨allOnly_nil, only_literal _⟩
    · exact ih.bind fun more hmore => ensures_pure (OnlyEntries.cons _ hfirst.1 hfirst.2 hmore _)

theorem only_branchKeys {sort : List SortKey} (h : sortSites sort ⊆ sites)
    (columns : List String) :
    Ensures (OnlyEntries (Served sites)) (branchKeys ctx sort columns) := by
  have hkeys : sortSites ((sort.zip columns).map Prod.fst) ⊆ sites := by
    intro t ht
    obtain ⟨key, hkey, ht⟩ := List.mem_flatMap.mp ht
    obtain ⟨pair, hpair, rfl⟩ := List.mem_map.mp hkey
    exact h (List.mem_flatMap.mpr ⟨pair.1, (List.of_mem_zip hpair).1, ht⟩)
  refine (only_sortValues hkeys).bind fun r hr => ensures_pure ⟨hr.1, fun entry hentry => ?_⟩
  obtain ⟨key, hkey, heq⟩ := List.mem_map.mp (List.of_mem_zip hentry).2
  exact heq ▸ hr.2 key hkey

theorem only_unionCall {composite column : String} {bodies : List (List Clause)} {union : Clause}
    (h : unionCall composite bodies column = .ok union) (hbodies : ∀ b ∈ bodies, AllOnly ok b) :
    union.Only ok := by
  unfold unionCall at h
  split at h
  · cases h
    simp
  · split at h
    · cases h
    · cases h
      simpa using hbodies

end Connections

section Fields

variable {ctx : Context} {sites : List Site} {ok : Access → Prop}

/-- A stored value is read from its property; of a point its reference system is read as well. -/
theorem only_shownValue {name : String} {a : Attribute}
    (h : (Expr.propertyOf name a.stored).Only (Served sites)) :
    (shownValue a (.propertyOf name a.stored)).Only (Served sites) := by
  have hsystem : Served sites ⟨false, none, "crs"⟩ := .inl .system
  unfold shownValue
  split
  · exact h
  · split
    · simpa using h
    · split
      · simpa [Expr.null, Expr.variable?, Expr.propertyOf, hsystem] using h
      · exact h

theorem only_storedItem {onEdge : Bool} {a : Attribute} (h : ⟨.projection, onEdge, a⟩ ∈ sites)
    (name key : String) : (storedItem name key a).Only (Served sites) name := by
  have hread := served_read h nofun name
  unfold storedItem
  dsimp only
  split
  · rename_i hown
    rw [Bool.and_eq_true, decide_eq_true_eq] at hown
    rw [hown.1]
    exact (only_propertyOf ..).mp hread
  · exact only_shownValue hread

theorem only_edgeProjection {fields : List EdgeField} (h : fields.flatMap EdgeField.sites ⊆ sites)
    {e : Expr} (he : edgeProjection ctx fields = .ok e) : e.Only (Served sites) := by
  simp only [edgeProjection, except_bind_ok, except_pure_ok] at he
  obtain ⟨edge, _, rfl⟩ := he
  refine (only_projection edge).mpr fun item hitem => ?_
  obtain ⟨field, hfield, rfl⟩ := List.mem_map.mp hitem
  cases field with
  | stored key a =>
    exact only_storedItem (h (List.mem_flatMap.mpr ⟨_, hfield, List.mem_cons_self⟩)) edge key
  | typename key typeName => exact only_literal _

theorem only_nestedCall {body : Context → Build (List Clause)}
    (h : ∀ inner, Ensures (AllOnly ok) (body inner)) :
    Ensures (fun r => AllOnly ok r.1 ∧ r.2.Only ok) (nestedCall ctx body) := by
  refine ensures_skip _ fun edge => ensures_skip _ fun node => ensures_skip _ fun result => ?_
  exact (h _).bind fun clauses hclauses => ensures_pure ⟨by simpa using hclauses, only_var result⟩

theorem only_readResult (scope : Scope) {projection : Expr} (h : projection.Only ok) :
    AllOnly ok (readResult ctx scope projection) := by
  unfold readResult
  split <;> simp [h, Column.named]

theorem only_compositeResult (relationship : Option Relationship) (column : String) :
    (compositeResult ctx relationship column).Only ok := by
  unfold compositeResult
  split <;> simp

/-- The sites of all the parts are among the given ones. -/
def Covers (sites : List Site) (parts : List Part) : Prop := ∀ p ∈ parts, p.sites ⊆ sites

theorem covers_cons {p : Part} {parts : List Part} :
    Covers sites (p :: parts) ↔ p.sites ⊆ sites ∧ Covers sites parts :=
  List.forall_mem_cons

theorem covers_append {parts parts' : List Part} :
    Covers sites (parts ++ parts') ↔ Covers sites parts ∧ Covers sites parts' :=
  List.forall_mem_append

/-- Calls with the items of a projection. -/
def OnlyItems (ok : Access → Prop) (name : String) (r : List Clause × List (MapItem Expr)) : Prop :=
  AllOnly ok r.1 ∧ ∀ item ∈ r.2, item.Only ok name

mutual
theorem only_item (ctx : Context) (f : Field) (h : Covers sites f.parts) :
    Ensures (fun r => AllOnly (Served sites) r.1 ∧ r.2.Only (Served sites) ctx.subject)
      (Field.item ctx f) := by
  match f with
  | .stored key a =>
    have hsite := h _ List.mem_cons_self List.mem_cons_self
    exact ensures_pure ⟨allOnly_nil, only_storedItem hsite ctx.subject key⟩
  | .typename key typeName => exact ensures_pure ⟨allOnly_nil, only_literal _⟩
  | .computed key a =>
    refine ensures_skip _ fun name => ?_
    refine (only_computedCall (Served sites) a name).bind fun call hcall => ?_
    exact ensures_pure ⟨by simpa using hcall, only_var name⟩
  | .lookup key l =>
    have hl := (covers_cons.mp h).2
    exact (only_nestedCall fun inner => only_lookupClauses inner l hl).bind fun r hr =>
      ensures_pure hr
  | .aggregate key a =>
    have ha := h _ (List.mem_cons_of_mem _ List.mem_cons_self)
    exact (only_nestedCall fun inner => only_aggregateClauses ha).bind fun r hr =>
      ensures_pure hr
theorem only_items (ctx : Context) (fields : List Field) (h : Covers sites (Field.partsOf fields)) :
    Ensures (OnlyItems (Served sites) ctx.subject) (Field.items ctx fields) := by
  match fields with
  | [] => exact ensures_pure ⟨allOnly_nil, by simp⟩
  | f :: rest =>
    obtain ⟨hfirst, hrest⟩ := covers_append.mp h
    refine (only_item ctx f hfirst).bind fun first hfirst => ?_
    refine (only_items ctx rest hrest).bind fun more hmore => ensures_pure ⟨?_, ?_⟩
    · exact allOnly_append.mpr ⟨hfirst.1, hmore.1⟩
    · exact List.forall_mem_cons.mpr ⟨hfirst.2, hmore.2⟩
theorem only_lookupClauses (ctx : Context) (l : Lookup Field)
    (h : Covers sites (Field.lookupParts l)) :
    Ensures (AllOnly (Served sites)) (Field.lookupClauses ctx l) := by
  match l with
  | .read ⟨scope, fields, sort, page⟩ =>
    obtain ⟨hread, hfields⟩ := covers_cons.mp h
    obtain ⟨hscope, hsort⟩ := List.append_subset.mp hread
    refine (only_distinctNodes hscope).bind fun found hfound => ?_
    refine (only_arranged hsort page).bind fun window hwindow => ?_
    refine (only_items ctx fields hfields).bind fun shown hshown => ensures_pure ?_
    have hprojection := (only_projection ctx.subject).mpr hshown.2
    simp only [allOnly_append]
    exact ⟨⟨⟨hfound, hwindow⟩, hshown.1⟩, only_readResult scope hprojection⟩
  | .connection ⟨scope, sort, page, items⟩ =>
    obtain ⟨hown, hparts⟩ := covers_cons.mp h
    obtain ⟨hfront, hitems⟩ := List.append_subset.mp hown
    obtain ⟨hscope, hsort⟩ := List.append_subset.mp hfront
    refine (only_scopeMatch hscope).bind fun found hfound => ?_
    refine (only_edgeList (Served sites) (only_edgeMap _ ctx) items page).bind fun l hl => ?_
    refine (only_entries ctx l.2 hl.2 hsort items hitems hparts).bind fun r hr => ensures_pure ?_
    simp only [allOnly_append]
    exact ⟨⟨⟨hfound, hl.1⟩, hr.1⟩, by simpa using hr.2⟩
  | .composite ⟨composite, relationship, branches, sort, page⟩ =>
    obtain ⟨hown, hparts⟩ := covers_cons.mp h
    refine ensures_skip _ fun column => ensures_skip _ fun columns => ?_
    refine (only_branches ctx column columns true branches hown hparts).bind
      fun bodies hbodies => ?_
    refine (ensures_lift fun union hunion => only_unionCall hunion hbodies).bind
      fun union hunion => ?_
    refine (only_mergedWindow (Served sites) column sort columns page).bind fun window hwindow => ?_
    exact ensures_pure (by simp [hunion, hwindow, only_compositeResult])
  | .compositeConnection ⟨composite, relationship, branches, sort, page, items⟩ =>
    obtain ⟨hown, hparts⟩ := covers_cons.mp h
    refine ensures_skip _ fun column => (ensures_sortColumns sort).bind fun columns hcolumns => ?_
    refine (only_connectionBranches ctx column columns true branches hown hparts).bind
      fun bodies hbodies => ?_
    refine (ensures_lift fun union hunion => only_unionCall hunion hbodies).bind
      fun union hunion => ?_
    refine (only_edgeList (Served sites) (only_var column) items page).bind fun l hl => ?_
    refine (only_mergedEntries hl.2 composite.name sort hcolumns items).bind fun r hr => ?_
    refine ensures_pure (allOnly_append.mpr ⟨?_, by simpa using hr.2⟩)
    simp [hunion, hl.1, hr.1]
theorem only_entries (ctx : Context) (l : EdgeList) (hb : l.bounds.All (Expr.Only (Served sites)))
    {sort : List SortKey} (hsort : sortSites sort ⊆ sites) (items : List (ConnectionItem Field))
    (hitems : items.flatMap ConnectionItem.sites ⊆ sites)
    (h : Covers sites (Field.itemParts items)) :
    Ensures (OnlyEntries (Served sites)) (Field.entries ctx l sort items) := by
  match items with
  | [] => exact ensures_pure onlyEntries_nil
  | .edges key node properties typename :: rest =>
    obtain ⟨hown, hitems⟩ := List.append_subset.mp hitems
    obtain ⟨hnode, h⟩ := covers_append.mp h
    refine ensures_skip _ fun result => (ensures_fresh "edge").bind fun edge hedge => ?_
    refine (only_orderedWindow hsort hb).bind fun window hwindow => ?_
    refine (only_nodeEntry ctx node hnode).bind fun shown hshown => ?_
    refine (ensures_lift (p := fun entries => ∀ p ∈ entries, p.2.Only (Served sites)) ?_).bind
      fun entries hentries => ?_
    · match properties with
      | none =>
        intro entries hentries
        rw [except_pure_ok] at hentries
        simp [← hentries]
      | some (own, fields) =>
        intro entries hentries
        simp only [except_bind_ok, except_pure_ok] at hentries
        obtain ⟨e, he, rfl⟩ := hentries
        exact List.forall_mem_singleton.mpr (only_edgeProjection hown he)
    · refine (only_entries ctx l hb hsort rest hitems h).bind fun more hmore => ensures_pure ?_
      refine OnlyEntries.cons [_] ?_ (only_var result) hmore key
      have hresult := only_edgesResult
        (List.forall_mem_append.mpr ⟨hshown.2, hentries⟩) typename result
      simp [only_unpackEdge l.edges hedge, hwindow, hshown.1, hresult]
  | .aggregate key aggregates :: rest =>
    obtain ⟨hown, hitems⟩ := List.append_subset.mp hitems
    refine (only_aggregateEntries (fun m name hm => only_edgeMeasureCall l.edges hm name)
      aggregates hown).bind fun group hgroup => ?_
    refine (only_entries ctx l hb hsort rest hitems h).bind fun more hmore => ensures_pure ?_
    exact OnlyEntries.cons _ hgroup.1 (only_map.mpr hgroup.2) hmore key
  | .totalCount key :: rest =>
    refine (only_entries ctx l hb hsort rest hitems h).bind fun more hmore => ensures_pure ?_
    exact OnlyEntries.cons [] allOnly_nil (only_var _) hmore key
  | .pageInfo key fields :: rest =>
    refine (only_entries ctx l hb hsort rest hitems h).bind fun more hmore => ensures_pure ?_
    exact OnlyEntries.cons [] allOnly_nil (only_pageInfo hb fields) hmore key
  | .typename key typeName :: rest =>
    refine (only_entries ctx l hb hsort rest hitems h).bind fun more hmore => ensures_pure ?_
    exact OnlyEntries.cons [] allOnly_nil (only_literal _) hmore key
theorem only_nodeEntry (ctx : Context) (node : Option (String × List Field))
    (h : Covers sites (Field.nodeParts node)) :
    Ensures (OnlyEntries (Served sites)) (Field.nodeEntry ctx node) := by
  match node with
  | none => exact ensures_pure onlyEntries_nil
  | some (key, fields) =>
    refine (only_items ctx fields h).bind fun r hr => ensures_pure ⟨hr.1, ?_⟩
    exact List.forall_mem_singleton.mpr ((only_projection ctx.subject).mpr hr.2)
theorem only_branches (ctx : Context) (column : String) (columns : List String)
    (isFirst : Bool) (branches : List (Read Field)) (hown : branches.flatMap Read.sites ⊆ sites)
    (h : Covers sites (Field.branchParts branches)) :
    Ensures (fun bodies => ∀ b ∈ bodies, AllOnly (Served sites) b)
      (Field.branches ctx column columns isFirst branches) := by
  match branches with
  | [] => exact ensures_pure (by simp)
  | ⟨scope, fields, sort, page⟩ :: rest =>
    obtain ⟨hread, hothers⟩ := List.append_subset.mp hown
    obtain ⟨hscope, hsort⟩ := List.append_subset.mp hread
    obtain ⟨hfields, hrest⟩ := covers_append.mp h
    refine ensures_skip _ fun own => (only_importParent (Served sites)).bind fun start hstart => ?_
    refine (only_distinctNodes hscope).bind fun found hfound => ?_
    refine (only_items own fields hfields).bind fun shown hshown => ?_
    refine (only_branchKeys hsort columns).bind fun keys hkeys => ?_
    refine (only_branches ctx column columns false rest hothers hrest).bind fun bodies hbodies => ?_
    refine ensures_pure (List.forall_mem_cons.mpr ⟨?_, hbodies⟩)
    have hcolumns : (Clause.giveAll (Column.named (.projection own.subject shown.2) column ::
        keys.2.map fun (name, e) => Column.named e name)).Only (Served sites) :=
      only_giveAll.mpr (List.forall_mem_cons.mpr
        ⟨(only_projection own.subject).mpr hshown.2, List.forall_mem_map.mpr hkeys.2⟩)
    simp [hstart, hfound, hshown.1, hkeys.1, hcolumns]
theorem only_connectionBranches (ctx : Context) (column : String) (columns : List String)
    (isFirst : Bool) (branches : List (ConnectionBranch Field))
    (hown : (branches.flatMap fun b => b.read.sites ++ b.edgeFields.flatMap EdgeField.sites) ⊆
      sites)
    (h : Covers sites (Field.connectionBranchParts branches)) :
    Ensures (fun bodies => ∀ b ∈ bodies, AllOnly (Served sites) b)
      (Field.connectionBranches ctx column columns isFirst branches) := by
  match branches with
  | [] => exact ensures_pure (by simp)
  | ⟨⟨scope, fields, sort, page⟩, edgeFields⟩ :: rest =>
    obtain ⟨hbranch, hothers⟩ := List.append_subset.mp hown
    obtain ⟨hread, hedge⟩ := List.append_subset.mp hbranch
    obtain ⟨hscope, hsort⟩ := List.append_subset.mp hread
    obtain ⟨hfields, hrest⟩ := covers_append.mp h
    refine ensures_skip _ fun own => (only_importParent (Served sites)).bind fun start hstart => ?_
    refine (only_scopeMatch hscope).bind fun found hfound => ?_
    refine (only_items own fields hfields).bind fun shown hshown => ?_
    refine (ensures_lift (p := fun entries => ∀ p ∈ entries, p.2.Only (Served sites)) ?_).bind
      fun properties hproperties => ?_
    · intro properties hproperties
      split at hproperties
      · rw [except_pure_ok] at hproperties
        simp [← hproperties]
      · simp only [except_bind_ok, except_pure_ok] at hproperties
        obtain ⟨e, he, rfl⟩ := hproperties
        exact List.forall_mem_singleton.mpr (only_edgeProjection hedge he)
    refine (only_branchKeys hsort columns).bind fun keys hkeys => ?_
    refine (only_connectionBranches ctx column columns false rest hothers hrest).bind
      fun bodies hbodies => ?_
    refine ensures_pure (List.forall_mem_cons.mpr ⟨?_, hbodies⟩)
    have hmap : (Expr.map (("node", .projection own.subject shown.2) ::
        properties ++ keys.2)).Only (Served sites) :=
      only_map.mpr (List.forall_mem_cons.mpr ⟨(only_projection own.subject).mpr hshown.2,
        List.forall_mem_append.mpr ⟨hproperties, hkeys.2⟩⟩)
    simp only [allOnly_append]
    exact ⟨⟨⟨⟨hstart, hfound⟩, hshown.1⟩, hkeys.1⟩, by simpa using hmap⟩
end

end Fields

section Changes

variable {ctx : Context} {sites : List Site}

theorem only_assigned {onEdge : Bool} {written : List Assignment}
    (h : assignmentSites onEdge written ⊆ sites) (name : String) :
    Ensures (AllOnly (Served sites)) (assigned name written) := by
  have hpairs : Ensures (fun pairs => ∀ p ∈ pairs, p.2.Only (Served sites) ∧
      ∃ holder key, p.1 = .propertyOf holder key ∧ Served sites ⟨true, some holder, key⟩)
      (assignmentList name written) := by
    induction written with
    | nil => exact ensures_pure (by simp)
    | cons a rest ih =>
      obtain ⟨hfirst, hrest⟩ := List.cons_subset.mp h
      have hwrites : Served sites ⟨true, some name, a.target.stored⟩ :=
        .inr ⟨_, hfirst, by simp, rfl, rfl⟩
      refine Ensures.bind (p := fun pair => pair.2.Only (Served sites) ∧
        ∃ holder key, pair.1 = .propertyOf holder key ∧ Served sites ⟨true, some holder, key⟩) ?_
        fun pair hpair => (ih hrest).bind fun pairs hpairs =>
          ensures_pure (List.forall_mem_cons.mpr ⟨hpair, hpairs⟩)
      exact (only_typedParam _ ..).bind fun value hvalue =>
        ensures_pure ⟨hvalue, name, a.target.stored, rfl, hwrites⟩
  refine hpairs.bind fun pairs hpairs => ensures_pure ?_
  split
  · exact allOnly_nil
  · exact allOnly_cons.mpr ⟨only_set hpairs, allOnly_nil⟩

theorem only_linkedNodes (child : Context) (link : Link) {filter : Option Condition}
    (h : Condition.optionSites filter ⊆ sites) :
    Ensures (AllOnly (Served sites)) (linkedNodes ctx child link filter) :=
  ensures_skip _ fun _ => only_filteredMatch _ h

@[simp] theorem only_counted {ok : Access → Prop} {body : List Clause} (result : String) :
    (counted ctx body result).Only ok ↔ AllOnly ok body := by
  simp [counted]

mutual
theorem only_clause (ctx : Context) (m : Mutation) (h : Covers sites m.parts) :
    Ensures (Clause.Only (Served sites)) (Mutation.clause ctx m) := by
  match m with
  | .create link ⟨assignments, nested, validations⟩ edgeAssignments =>
    obtain ⟨hchange, hnested⟩ := covers_cons.mp h
    obtain ⟨hnode, hedge⟩ := List.append_subset.mp hchange
    obtain ⟨hassignments, hvalidations⟩ := List.append_subset.mp hnode
    refine ensures_skip _ fun edge => ensures_skip _ fun node => ensures_skip _ fun result => ?_
    refine (only_assigned hassignments node).bind fun own hown => ?_
    refine (only_assigned hedge edge).bind fun onEdge honEdge => ?_
    refine (only_after _ ?_ nested hnested).bind fun written hwritten => ?_
    · simp [hown, honEdge]
    exact (only_validated hvalidations).bind fun checks hchecks =>
      ensures_pure (by simp [hwritten, hchecks])
  | .connect link filter edgeAssignments validations =>
    obtain ⟨hfront, hvalidations⟩ := List.append_subset.mp (covers_cons.mp h).1
    obtain ⟨hfilter, hedge⟩ := List.append_subset.mp hfront
    refine ensures_skip _ fun edge => ensures_skip _ fun node => ensures_skip _ fun result => ?_
    refine (only_filteredMatch _ hfilter).bind fun found hfound => ?_
    refine (only_assigned hedge edge).bind fun onEdge honEdge => ?_
    exact (only_validated hvalidations).bind fun checks hchecks =>
      ensures_pure (by simp [hfound, honEdge, hchecks])
  | .disconnect link filter validations =>
    obtain ⟨hfilter, hvalidations⟩ := List.append_subset.mp (covers_cons.mp h).1
    refine ensures_skip _ fun edge => ensures_skip _ fun node => ensures_skip _ fun result => ?_
    refine (only_linkedNodes _ link hfilter).bind fun found hfound => ?_
    exact (only_validated hvalidations).bind fun checks hchecks =>
      ensures_pure (by simp [hfound, hchecks])
  | .update link filter before nodeAssignments edgeAssignments after =>
    obtain ⟨hfront, hafter⟩ := List.append_subset.mp (covers_cons.mp h).1
    obtain ⟨hfront, hedge⟩ := List.append_subset.mp hfront
    obtain ⟨hfront, hnode⟩ := List.append_subset.mp hfront
    obtain ⟨hfilter, hbefore⟩ := List.append_subset.mp hfront
    refine ensures_skip _ fun edge => ensures_skip _ fun node => ensures_skip _ fun result => ?_
    refine (only_linkedNodes _ link hfilter).bind fun found hfound => ?_
    refine (only_validated hbefore).bind fun first hfirst => ?_
    refine (only_assigned hnode node).bind fun own hown => ?_
    refine (only_assigned hedge edge).bind fun onEdge honEdge => ?_
    exact (only_validated hafter).bind fun last hlast =>
      ensures_pure (by simp [hfound, hfirst, hown, honEdge, hlast])
  | .delete link filter before nested =>
    obtain ⟨hchange, hnested⟩ := covers_cons.mp h
    obtain ⟨hfilter, hbefore⟩ := List.append_subset.mp hchange
    refine ensures_skip _ fun edge => ensures_skip _ fun node => ensures_skip _ fun result => ?_
    refine (only_linkedNodes _ link hfilter).bind fun found hfound => ?_
    refine (only_validated hbefore).bind fun first hfirst => ?_
    refine (only_after _ (allOnly_append.mpr ⟨hfound, hfirst⟩) nested hnested).bind
      fun clauses hclauses => ensures_pure ?_
    simp [hclauses]
theorem only_after (ctx : Context) {before : List Clause} (hbefore : AllOnly (Served sites) before)
    (ms : List Mutation) (h : Covers sites (Mutation.partsOf ms)) :
    Ensures (AllOnly (Served sites)) (Mutation.after ctx before ms) := by
  match ms with
  | [] => exact ensures_pure hbefore
  | m :: rest =>
    obtain ⟨hfirst, hrest⟩ := covers_append.mp h
    refine (only_clause ctx m hfirst).bind fun clause hclause => ?_
    exact only_after ctx (by simp [hbefore, hclause]) rest hrest
end

theorem only_newNode (e : Entity) {n : NewNode Mutation} (h : Covers sites (newNodeParts e n)) :
    Ensures (AllOnly (Served sites)) (newNode ctx e n) := by
  obtain ⟨hown, hnested⟩ := covers_cons.mp h
  obtain ⟨hassignments, hvalidations⟩ := List.append_subset.mp hown
  refine (only_assigned hassignments ctx.subject).bind fun own hown => ?_
  refine (only_after ctx ?_ n.nested hnested).bind fun written hwritten => ?_
  · simp [hown]
  exact (only_validated hvalidations).bind fun checks hchecks =>
    ensures_pure (by simp [hwritten, hchecks])

theorem only_newNodes (e : Entity) (isFirst : Bool) {nodes : List (NewNode Mutation)}
    (h : Covers sites (nodes.flatMap (newNodeParts e))) :
    Ensures (fun r => AllOnly (Served sites) r.1) (newNodes ctx e isFirst nodes) := by
  induction nodes generalizing isFirst with
  | nil => exact ensures_pure allOnly_nil
  | cons n rest ih =>
    obtain ⟨hfirst, hrest⟩ := covers_append.mp h
    refine ensures_skip _ fun own => (only_newNode e hfirst).bind fun body hbody => ?_
    exact (ih false hrest).bind fun more hmore =>
      ensures_pure (by simp [Column.var, hbody, hmore])

theorem only_projections {fields : List Field} (h : Covers sites (Field.partsOf fields))
    (contexts : List Context) :
    Ensures (fun r => AllOnly (Served sites) r.1 ∧ ∀ e ∈ r.2, e.Only (Served sites))
      (projections fields contexts) := by
  induction contexts with
  | nil => exact ensures_pure ⟨allOnly_nil, by simp⟩
  | cons ctx rest ih =>
    refine (only_items ctx fields h).bind fun first hfirst => ih.bind fun more hmore => ?_
    exact ensures_pure ⟨allOnly_append.mpr ⟨hfirst.1, hmore.1⟩,
      List.forall_mem_cons.mpr ⟨(only_projection ctx.subject).mpr hfirst.2, hmore.2⟩⟩

/-- The clauses of a plan access what serves its sites. -/
theorem only_operationClauses {o : Operation} (h : Covers sites o.parts) :
    Ensures (AllOnly (Served sites)) (operationClauses ctx o) := by
  cases o with
  | lookup l => exact only_lookupClauses ctx l h
  | aggregate a => exact only_aggregateClauses (covers_cons.mp h).1
  | create c =>
    obtain ⟨hnodes, hfields⟩ := covers_append.mp h
    refine (only_newNodes c.entity true hnodes).bind fun made hmade => ?_
    refine (only_projections hfields _).bind fun shown hshown => ensures_pure ?_
    refine allOnly_append.mpr ⟨allOnly_append.mpr ⟨hmade, hshown.1⟩, ?_⟩
    simpa using hshown.2
  | update u =>
    obtain ⟨hchange, hfields⟩ := covers_append.mp h
    obtain ⟨hown, hnested⟩ := covers_cons.mp hchange
    obtain ⟨hfront, hafter⟩ := List.append_subset.mp hown
    obtain ⟨hfront, hwritten⟩ := List.append_subset.mp hfront
    obtain ⟨hfilter, hbefore⟩ := List.append_subset.mp hfront
    refine (only_filteredMatch _ hfilter).bind fun found hfound => ?_
    refine (only_validated hbefore).bind fun first hfirst => ?_
    refine (only_assigned hwritten ctx.subject).bind fun own hown => ?_
    refine (only_after ctx (by simp [hfound, hfirst, hown]) u.nested hnested).bind
      fun written hwritten => ?_
    refine (only_validated hafter).bind fun last hlast => ?_
    refine (only_items ctx u.fields hfields).bind fun shown hshown => ensures_pure ?_
    refine allOnly_append.mpr ⟨by simp [hwritten, hlast, hshown.1], ?_⟩
    simpa using hshown.2
  | delete d =>
    obtain ⟨hown, hnested⟩ := covers_cons.mp h
    obtain ⟨hfilter, hbefore⟩ := List.append_subset.mp hown
    refine (only_filteredMatch _ hfilter).bind fun found hfound => ?_
    refine (only_validated hbefore).bind fun first hfirst => ?_
    refine (only_after ctx (by simp [hfound, hfirst]) d.nested hnested).bind
      fun clauses hclauses => ensures_pure ?_
    simp [hclauses]

end Changes

end GraphSelection.Program

namespace GraphSelection

open Cypher Plan Resolve Program

/-- Whatever a program accesses is of its own making or is the stored property of a sound site of
the plan. So no property is accessed on account of a computed attribute of a node, and on account
of a computed attribute of an edge none is measured or written. -/
theorem compile_stored (s : Setup) (r : Request) (p : Compiled) (h : compile s r = .ok p) :
    ∃ o, s.plan r = .ok o ∧ ∀ x ∈ Clause.accessesOf p.clauses,
      x.Internal ∨ ∃ t ∈ o.sites, Site.Serves t x ∧ t.Sound s.schema ∧
        (t.attr.isComputed = true → t.onEdge = true ∧ t.use.isChecked = false) := by
  obtain ⟨o, t, hplan, hprogram, _, _⟩ := Scoping.compile_ok h
  have hcovers : Covers o.sites o.parts := fun p hp t ht => List.mem_flatMap.mpr ⟨p, hp, ht⟩
  have hclauses : Ensures (AllOnly (Served o.sites)) (programOf s.terms o) :=
    ensures_skip _ fun _ => only_operationClauses hcovers
  refine ⟨o, hplan, fun x hx => ?_⟩
  rcases hclauses.run {} p.clauses t hprogram x hx with hinternal | ⟨t, ht, hserves⟩
  · exact .inl hinternal
  · have hsound := Setup.operation_sound (Scoping.plan_ok hplan) t ht
    exact .inr ⟨t, ht, hserves, hsound, hsound.of_computed⟩

/-- The famous are found and shown by the property of their births, and by no property of fame. -/
theorem famous_stored :
    ∃ p o, compile Stage.setup Stage.famous = .ok p ∧ Stage.setup.plan Stage.famous = .ok o ∧
      ⟨false, some "this0", "born"⟩ ∈ Clause.accessesOf p.clauses ∧
      (∀ x ∈ Clause.accessesOf p.clauses, x.key ≠ "fame") ∧
      ∀ x ∈ Clause.accessesOf p.clauses,
        x.Internal ∨ ∃ t ∈ o.sites, Site.Serves t x ∧ t.Sound Stage.schema ∧
          (t.attr.isComputed = true → t.onEdge = true ∧ t.use.isChecked = false) := by
  have hsome : (compile Stage.setup Stage.famous).toOption.any (fun p : Compiled =>
      decide (⟨false, some "this0", "born"⟩ ∈ Clause.accessesOf p.clauses ∧
        ∀ x ∈ Clause.accessesOf p.clauses, x.key ≠ "fame")) = true := by
    decide +kernel
  obtain ⟨p, h, haccesses⟩ := exists_of_any hsome
  obtain ⟨hborn, hfame⟩ := of_decide_eq_true haccesses
  obtain ⟨o, hplan, hserved⟩ := compile_stored Stage.setup Stage.famous p h
  exact ⟨p, o, h, hplan, hborn, hfame, hserved⟩

namespace Stage

/-- Actors have a place in the credits of a film, which is computed. -/
def castDefinition : Definition :=
  { enums := []
    entities :=
      [("Film",
        { labels := []
          attributes := [("title", attributeOf "String")]
          relationships :=
            [("actors",
              { graphType := "ACTED_IN", direction := .incoming, target := "Person", list := true
                properties := some "ActedIn", nestedActions := none })]
          rules := []
          pages := none }),
       ("Person",
        { labels := []
          attributes := [("name", attributeOf "String")]
          relationships := []
          rules := []
          pages := none })]
    propertySets :=
      [("ActedIn",
        [("role", attributeOf "String"),
         ("billing",
           { attributeOf "Int" with computation := some ⟨"RETURN 1 AS n", "n"⟩ })])]
    interfaces := []
    unions := [] }

/-- Films with the number of their actors that are named first. -/
def firstBilled : Request :=
  { operation := .read
    entity := "Film"
    selection :=
      [.leaf "title",
       { name := "actorsConnection"
         args := [("where", .record [("edge", .record [("billing", .int 1)])])]
         selection := [.leaf "totalCount"] }] }

end Stage

/-- All attributes that are declared for nodes or edges. -/
def Schema.declared (schema : Schema) : List Attribute :=
  schema.entities.values.flatMap (fun e => e.attributes.values) ++
    schema.propertySets.values.flatMap fun p => p.attributes.values

/-- The billing is compared by a property of the edge. Only one attribute could be stored under that
name, and it is computed. -/
theorem billing_compared :
    ∃ schema p, Stage.castDefinition.build = .ok schema ∧
      compile ⟨schema, {}, {}⟩ Stage.firstBilled = .ok p ∧
      ⟨false, some "this1", "billing"⟩ ∈ Clause.accessesOf p.clauses ∧
      (schema.declared.filter fun a => a.stored = "billing").map Attribute.isComputed = [true] := by
  have hall : Stage.castDefinition.build.toOption.any (fun schema =>
      (compile ⟨schema, {}, {}⟩ Stage.firstBilled).toOption.any fun p : Compiled => decide
        (⟨false, some "this1", "billing"⟩ ∈ Clause.accessesOf p.clauses ∧
          (schema.declared.filter fun a => a.stored = "billing").map Attribute.isComputed =
            [true])) = true := by
    decide +kernel
  cases hbuild : Stage.castDefinition.build with
  | error fault =>
    rw [hbuild] at hall
    cases hall
  | ok schema =>
    rw [hbuild] at hall
    cases hcompile : compile ⟨schema, {}, {}⟩ Stage.firstBilled with
    | error failure =>
      simp [Except.toOption, hcompile] at hall
    | ok p =>
      simp only [Except.toOption, hcompile, Option.any_some, decide_eq_true_eq] at hall
      exact ⟨schema, p, rfl, hcompile, hall⟩

end GraphSelection
