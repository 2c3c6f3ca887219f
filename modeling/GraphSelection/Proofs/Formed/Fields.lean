import GraphSelection.Program.Fields
import GraphSelection.Proofs.Formed.Scopes

/-!
Fields and lookups are written in well-formed lists. The clauses of a lookup write nothing and end
in a `RETURN`; those of a composite start with one call of its own for the union of its branches,
which end in the same columns.
-/
namespace GraphSelection.Program

open Cypher Plan Minting

variable {policy : Policy} {ctx : Context}

section Edges

theorem still_unpackEdge (ctx : Context) (edges edge : String) :
    StillList policy (unpackEdge ctx edges edge) := by
  have hcolumns : ∀ c ∈ (ctx.relationship.map fun r =>
      Column.named (.propertyOf edge "relationship") r).toList, c.expression.Obeys policy := by
    intro c hc
    obtain ⟨r, _, rfl⟩ := Option.map_eq_some_iff.mp (Option.mem_toList.mp hc)
    exact obeys_propertyOf _ _
  refine stillList_cons.mpr ⟨(still_unwind _).mpr (obeys_var edges), stillList_cons.mpr ⟨?_, ?_⟩⟩
  · exact still_carryOnly.mpr (List.forall_mem_cons.mpr ⟨obeys_propertyOf _ _, hcolumns⟩)
  · exact stillList_nil

theorem grants_edgeMeasureCall (edges : String) (m : Measure) (result : String) :
    Grants policy (Clause.Still policy) (edgeMeasureCall ctx edges m result) := by
  refine (grants_fresh (by decide)).skip fun edge => (grants_measured ..).bind fun reduced => ?_
  refine grants_pure fun hreduced => (still_call _).mpr ?_
  have hbefore : StillList policy (unpackEdge ctx edges edge ++ reduced.1) :=
    stillList_append.mpr ⟨still_unpackEdge ctx edges edge, hreduced.1⟩
  exact hbefore.opened.give hreduced.2 result _

theorem still_collectEdges {edge : Expr} (h : edge.Obeys policy) (edges total : String) :
    StillList policy (collectEdges edge edges total) := by
  simp [collectEdges, Column.named, Column.var, h]

theorem grants_edgeList {φ : Type} {edge : Expr} (h : edge.Obeys policy)
    (items : List (ConnectionItem φ)) (page : Page) :
    Grants policy (fun r => StillList policy r.1 ∧ r.2.bounds.All (Expr.Obeys policy))
      (edgeList edge items page) := by
  refine (grants_fresh (by decide)).skip fun edges => ?_
  refine (grants_fresh (by decide)).skip fun total => ?_
  have hcollect := still_collectEdges h edges total
  split
  · exact (grants_bounds page).bind fun b => grants_pure fun hb => ⟨hcollect, hb⟩
  · exact grants_pure ⟨hcollect, ⟨nofun, nofun⟩⟩

theorem obeys_edgeMap (ctx : Context) : (edgeMap ctx).Obeys policy := by
  refine obeys_map.mpr (List.forall_mem_cons.mpr ⟨obeys_var _, fun entry hentry => ?_⟩)
  obtain ⟨r, _, rfl⟩ := Option.map_eq_some_iff.mp (Option.mem_toList.mp hentry)
  exact obeys_var r

theorem obeys_pageInfo {l : EdgeList} (hb : l.bounds.All (Expr.Obeys policy))
    (field : PageInfoField) : (l.pageInfo field).2.Obeys policy := by
  cases field with
  | hasNextPage key =>
    change l.hasNextPage.Obeys policy
    unfold EdgeList.hasNextPage
    cases hlimit : l.bounds.limit with
    | none => exact obeys_literal _
    | some limit =>
      have hl : limit.Obeys policy := hb.limit limit hlimit
      cases hskip : l.bounds.skip with
      | none => exact (obeys_binary _).mpr ⟨hl, obeys_var _⟩
      | some skip =>
        have hs : skip.Obeys policy := hb.skip skip hskip
        exact (obeys_binary _).mpr ⟨(obeys_binary _).mpr ⟨hs, hl⟩, obeys_var _⟩
  | hasPreviousPage key =>
    change l.hasPreviousPage.Obeys policy
    unfold EdgeList.hasPreviousPage
    cases hskip : l.bounds.skip with
    | none => exact obeys_literal _
    | some skip => exact (obeys_binary _).mpr ⟨hb.skip skip hskip, obeys_literal _⟩
  | typename key => exact obeys_literal _

theorem obeys_pageInfoMap {l : EdgeList} (hb : l.bounds.All (Expr.Obeys policy))
    (fields : List PageInfoField) : (Expr.map (fields.map l.pageInfo)).Obeys policy := by
  refine obeys_map.mpr fun entry hentry => ?_
  obtain ⟨field, _, rfl⟩ := List.mem_map.mp hentry
  exact obeys_pageInfo hb field

end Edges

section Unions

/-- A branch is a whole list that ends in named columns. -/
structure Branch (policy : Policy) (body : List Clause) : Prop where
  block : Block policy .branch body
  named : ∃ columns, body.getLast? = some (.giveAll columns) ∧
    ∀ c ∈ columns, ∃ name, c.rename = some name

theorem branch_giveAll {before : List Clause} (h : StillList policy before)
    {pairs : List (String × Expr)} (hpairs : ∀ p ∈ pairs, p.2.Obeys policy) :
    Branch policy (before ++ [.giveAll (pairs.map fun (name, e) => Column.named e name)]) where
  block := by
    refine h.opened.giveAll (fun c hc => ?_) _
    obtain ⟨p, hp, rfl⟩ := List.mem_map.mp hc
    exact hpairs p hp
  named := by
    refine ⟨_, List.getLast?_concat .., fun c hc => ?_⟩
    obtain ⟨p, _, rfl⟩ := List.mem_map.mp hc
    exact ⟨p.1, rfl⟩

/-- The columns of a branch are those with which it is compared to the others. -/
theorem Branch.columns {body : List Clause} (h : Branch policy body) :
    EndsInColumns ((branchColumns body).map some) body := by
  obtain ⟨columns, hlast, hnamed⟩ := h.named
  refine ⟨columns, false, hlast, ?_⟩
  have hcolumns : branchColumns body =
      (columns.map Column.name?).map (·.getD "<expression>") := by
    simp [branchColumns, hlast, Clause.giveAll, Clause.returned?]
  rw [hcolumns, List.map_map, List.map_map]
  refine List.map_congr_left fun c hc => ?_
  obtain ⟨name, hname⟩ := hnamed c hc
  simp [Column.name?, hname]

theorem firstMismatch_none {expected : List String} {bodies : List (List Clause)}
    (h : firstMismatch expected bodies = none) : ∀ b ∈ bodies, branchColumns b = expected := by
  induction bodies with
  | nil => simp
  | cons b rest ih =>
    unfold firstMismatch at h
    split at h
    · rename_i heq
      exact List.forall_mem_cons.mpr ⟨heq, ih h⟩
    · cases h

theorem still_unionCall {composite column : String} {bodies : List (List Clause)}
    (hbodies : ∀ b ∈ bodies, Branch policy b) {union : Clause}
    (h : unionCall composite bodies column = .ok union) : union.Still policy := by
  unfold unionCall at h
  split at h
  · cases h
    exact (still_unwind column).mpr (obeys_list.mpr (by simp))
  · rename_i first rest
    split at h
    · cases h
    · rename_i hnone
      cases h
      have hsame : ∀ b ∈ first :: rest, branchColumns b = branchColumns first :=
        List.forall_mem_cons.mpr ⟨rfl, firstMismatch_none hnone⟩
      have hends : ∀ b ∈ first :: rest, EndsInColumns ((branchColumns first).map some) b :=
        fun b hb => hsame b hb ▸ (hbodies b hb).columns
      exact still_union (fun b hb => (hbodies b hb).block) hends

theorem grants_sortColumns (sort : List SortKey) :
    Grants policy (fun _ => True) (sortColumns sort) := by
  induction sort with
  | nil => exact grants_pure trivial
  | cons key rest ih =>
    exact (grants_fresh (by decide)).skip fun name => ih.skip fun names => grants_pure trivial

theorem grants_branchContext (isFirst : Bool) :
    Grants policy (fun _ => True) (branchContext ctx isFirst) := by
  unfold branchContext
  split
  · exact grants_pure trivial
  · refine (grants_fresh (by decide)).skip fun subject => ?_
    split
    · exact grants_pure trivial
    · exact (grants_fresh (by decide)).skip fun relationship => grants_pure trivial

theorem grants_mergedWindow (column : String) (sort : List SortKey) (columns : List String)
    (page : Page) : Grants policy (StillList policy) (mergedWindow column sort columns page) := by
  unfold mergedWindow
  split
  · exact grants_pure stillList_nil
  · refine (grants_bounds page).bind fun b => grants_pure fun hb => ?_
    refine stillList_cons.mpr ⟨?_, stillList_nil⟩
    refine (still_carry _).mpr ⟨?_, ?_, hb.skip, hb.limit, nofun⟩
    · intro c hc
      rw [← List.map_cons] at hc
      obtain ⟨name, _, rfl⟩ := List.mem_map.mp hc
      exact obeys_var name
    · intro key hkey
      obtain ⟨pair, _, rfl⟩ := List.mem_map.mp hkey
      exact obeys_var pair.2

theorem grants_branchKeys {sort : List SortKey} {edges : Bool}
    (h : ∀ key ∈ sort, key.target.Fits (Allows policy) edges) (columns : List String) :
    Grants policy (ObeyEntries policy) (branchKeys ctx sort columns) := by
  have hkeys : ∀ key ∈ (sort.zip columns).map Prod.fst, key.target.Fits (Allows policy) edges := by
    intro key hkey
    obtain ⟨pair, hpair, rfl⟩ := List.mem_map.mp hkey
    exact h pair.1 (List.of_mem_zip hpair).1
  refine (grants_sortValues hkeys).bind fun r => grants_pure fun hr => ⟨hr.1, ?_⟩
  intro entry hentry
  obtain ⟨key, hkey, heq⟩ := List.mem_map.mp (List.of_mem_zip hentry).2
  exact heq ▸ hr.2 key hkey

end Unions

section Results

theorem obeys_shownValue (a : Attribute) {e : Expr} (h : e.Obeys policy) :
    (shownValue a e).Obeys policy := by
  unfold shownValue
  split
  · exact h
  · split
    · simpa using h
    · split
      · simp [h, Expr.null]
      · exact h

/-- The values of a projection. -/
def ObeyItem (policy : Policy) (item : MapItem Expr) : Prop :=
  ∀ key e, item = .entry key e → e.Obeys policy

theorem obeys_storedItem (name key : String) (a : Attribute) :
    ObeyItem policy (storedItem name key a) := by
  intro key' e he
  simp only [storedItem] at he
  split at he
  · cases he
  · cases he
    exact obeys_shownValue a (obeys_propertyOf _ _)

theorem obeys_items {name : String} {items : List (MapItem Expr)}
    (h : ∀ item ∈ items, ObeyItem policy item) : (Expr.projection name items).Obeys policy :=
  (obeys_projection name).mpr fun key e he => h _ he key e rfl

theorem obeys_edgeProjection {fields : List EdgeField} {e : Expr}
    (h : edgeProjection ctx fields = .ok e) : e.Obeys policy := by
  simp only [edgeProjection, except_bind_ok, except_pure_ok] at h
  obtain ⟨edge, _, rfl⟩ := h
  refine obeys_items fun item hitem => ?_
  obtain ⟨field, _, rfl⟩ := List.mem_map.mp hitem
  cases field with
  | stored key a => exact obeys_storedItem edge key a
  | typename key typeName =>
    intro key' e he
    cases he
    exact obeys_literal _

theorem obeys_entries {key : String} {e : Expr} (h : e.Obeys policy) :
    ∀ entry ∈ [(key, e)], entry.2.Obeys policy := by
  simpa using h

theorem obeys_edgeEntry {fields : List EdgeField} {key : String} {entries : List (String × Expr)}
    (h : (do
      let e ← edgeProjection ctx fields
      pure [(key, e)]) = Except.ok entries) : ∀ entry ∈ entries, entry.2.Obeys policy := by
  simp only [except_bind_ok, except_pure_ok] at h
  obtain ⟨e, he, rfl⟩ := h
  exact obeys_entries (obeys_edgeProjection he)

theorem grants_nestedCall {body : Context → Build (List Clause)}
    (h : ∀ inner, Grants policy (Answer policy (.call [ctx.subject]) inner.result) (body inner)) :
    Grants policy (fun r => StillList policy r.1 ∧ r.2.Obeys policy) (nestedCall ctx body) := by
  refine grants_names fun edge node result => (h _).bind fun clauses => ?_
  refine grants_pure fun hclauses => ⟨?_, obeys_var result⟩
  exact stillList_cons.mpr ⟨(still_call _).mpr hclauses.block, stillList_nil⟩

theorem answer_readResult {before : List Clause} (h : StillList policy before) (ctx : Context)
    (scope : Scope) {projection : Expr} (hprojection : projection.Obeys policy) (place : Place) :
    Answer policy place ctx.result (before ++ readResult ctx scope projection) := by
  unfold readResult
  split
  · exact h.opened.answer hprojection _ _
  · rename_i r _
    have hcarried : StillList policy
        (before ++ [.carryOnly [Column.named projection ctx.subject]]) := by
      simpa [h, Column.named] using hprojection
    rw [← List.singleton_append (l := [_]), ← List.append_assoc]
    exact hcarried.opened.answer (obeys_collected (obeys_var _) r.isList) _ _

theorem answer_compositeResult {before : List Clause} (h : StillList policy before) (ctx : Context)
    (relationship : Option Relationship) (column : String) (place : Place) :
    Answer policy place ctx.result (before ++ [compositeResult ctx relationship column]) := by
  unfold compositeResult
  split
  · exact h.opened.answer (obeys_var column) _ _
  · rename_i r
    exact h.opened.answer (obeys_collected (obeys_var column) r.isList) _ _

/-- The call that shows the edges of a page. -/
theorem still_edgesCall {entries : List (String × Expr)}
    (h : ∀ entry ∈ entries, entry.2.Obeys policy) (imports : List String) {before : List Clause}
    (hbefore : StillList policy before) (typename : Option (String × String)) (result : String) :
    (Clause.call imports (before ++ [edgesResult entries typename result])).Still policy := by
  refine (still_call _).mpr (hbefore.opened.give ?_ _ _)
  refine (obeys_apply _).mpr (List.forall_mem_singleton.mpr (obeys_map.mpr fun entry hentry => ?_))
  rcases List.mem_append.mp hentry with hentry | hentry
  · exact h entry hentry
  · obtain ⟨pair, _, rfl⟩ := Option.map_eq_some_iff.mp (Option.mem_toList.mp hentry)
    exact obeys_literal _

theorem grants_mergedEdgesCall {l : EdgeList} (sort : List SortKey) (columns : List String)
    (node properties : Option String) (typename : Option (String × String)) :
    Grants policy
      (fun r => l.bounds.All (Expr.Obeys policy) → StillList policy r.1 ∧ r.2.Obeys policy)
      (mergedEdgesCall l sort columns node properties typename) := by
  refine (grants_fresh (by decide)).skip fun result => ?_
  refine (grants_fresh (by decide)).skip fun edge => ?_
  refine grants_pure fun hb => ⟨stillList_cons.mpr ⟨?_, stillList_nil⟩, obeys_var result⟩
  refine still_edgesCall (fun entry hentry => ?_) _ (stillList_cons.mpr ⟨?_, ?_⟩) typename result
  · rcases List.mem_append.mp hentry with hentry | hentry
    all_goals
      obtain ⟨key, _, rfl⟩ := Option.map_eq_some_iff.mp (Option.mem_toList.mp hentry)
      exact obeys_propertyOf _ _
  · exact (still_unwind edge).mpr (obeys_var _)
  · split
    · exact stillList_nil
    · refine stillList_cons.mpr ⟨(still_carry _).mpr ⟨?_, ?_, hb.skip, hb.limit, nofun⟩,
        stillList_nil⟩
      · exact List.forall_mem_singleton.mpr (obeys_var edge)
      · intro key hkey
        obtain ⟨pair, _, rfl⟩ := List.mem_map.mp hkey
        exact obeys_propertyOf _ _

theorem grants_mergedEntries {φ : Type} {l : EdgeList} (composite : String) (sort : List SortKey)
    (columns : List String) (items : List (ConnectionItem φ)) :
    Grants policy (fun r => l.bounds.All (Expr.Obeys policy) → ObeyEntries policy r)
      (mergedEntries l composite sort columns items) := by
  induction items with
  | nil => exact grants_pure fun _ => obeyEntries_nil
  | cons item rest ih =>
    refine Grants.bind (p := fun r => l.bounds.All (Expr.Obeys policy) →
      StillList policy r.1 ∧ r.2.Obeys policy) ?_ fun first => ih.bind fun more =>
        grants_pure fun hmore hfirst hb => .cons (hfirst hb).1 (hfirst hb).2 (hmore hb) item.key
    cases item with
    | edges key node properties typename => exact grants_mergedEdgesCall ..
    | aggregate key items => exact grants_fail _
    | totalCount key => exact grants_pure fun _ => ⟨stillList_nil, obeys_var _⟩
    | pageInfo key fields =>
      exact grants_pure fun hb => ⟨stillList_nil, obeys_pageInfoMap hb fields⟩
    | typename key typeName => exact grants_pure fun _ => ⟨stillList_nil, obeys_literal _⟩

end Results

section Fields

mutual
theorem grants_item (ctx : Context) (f : Field) (h : ∀ p ∈ f.parts, p.Fits (Allows policy)) :
    Grants policy (fun r => StillList policy r.1 ∧ ObeyItem policy r.2) (Field.item ctx f) := by
  match f with
  | .stored key a => exact grants_pure ⟨stillList_nil, obeys_storedItem _ _ _⟩
  | .typename key typeName =>
    refine grants_pure ⟨stillList_nil, fun key' e he => ?_⟩
    cases he
    exact obeys_literal _
  | .computed key a =>
    have ha : Allows policy a := h _ List.mem_cons_self
    refine (grants_fresh (by decide)).skip fun name => (grants_computedCall ha name).bind ?_
    refine fun call => grants_pure fun hcall => ⟨by simpa using hcall, fun key' e he => ?_⟩
    cases he
    exact obeys_var name
  | .lookup key l =>
    refine (grants_nestedCall fun inner => grants_lookupClauses inner l
      (fun p hp => h p (List.mem_cons_of_mem _ hp)) _).bind fun r => ?_
    refine grants_pure fun hr => ⟨hr.1, fun key' e he => ?_⟩
    cases he
    exact hr.2
  | .aggregate key a =>
    have ha : a.scope.Fits (Allows policy) false := h (.aggregate a) (by simp [Field.parts])
    refine (grants_nestedCall fun inner => grants_aggregateClauses inner ha _).bind fun r => ?_
    refine grants_pure fun hr => ⟨hr.1, fun key' e he => ?_⟩
    cases he
    exact hr.2
theorem grants_items (ctx : Context) (fields : List Field)
    (h : ∀ p ∈ Field.partsOf fields, p.Fits (Allows policy)) :
    Grants policy (fun r => StillList policy r.1 ∧ ∀ item ∈ r.2, ObeyItem policy item)
      (Field.items ctx fields) := by
  match fields with
  | [] => exact grants_pure (by simp)
  | f :: rest =>
    refine (grants_item ctx f fun p hp => h p (List.mem_append_left _ hp)).bind fun first => ?_
    refine (grants_items ctx rest fun p hp => h p (List.mem_append_right _ hp)).bind fun more => ?_
    refine grants_pure fun hmore hfirst => ⟨stillList_append.mpr ⟨hfirst.1, hmore.1⟩, ?_⟩
    exact List.forall_mem_cons.mpr ⟨hfirst.2, hmore.2⟩
theorem grants_lookupClauses (ctx : Context) (l : Lookup Field)
    (h : ∀ p ∈ Field.lookupParts l, p.Fits (Allows policy)) (place : Place) :
    Grants policy (Answer policy place ctx.result) (Field.lookupClauses ctx l) := by
  match l with
  | .read ⟨scope, fields, sort, page⟩ =>
    have hread : Read.Fits (Allows policy) false ⟨scope, fields, sort, page⟩ :=
      h _ List.mem_cons_self
    refine (grants_distinctNodes hread.scope).bind fun found => ?_
    refine (grants_arranged hread.sort page).bind fun window => ?_
    refine (grants_items ctx fields fun p hp => h p (List.mem_cons_of_mem _ hp)).bind fun r => ?_
    refine grants_pure fun hr hwindow hfound => ?_
    have hbefore := stillList_append.mpr ⟨stillList_append.mpr ⟨hfound, hwindow⟩, hr.1⟩
    exact answer_readResult hbefore ctx scope (obeys_items hr.2) place
  | .connection ⟨scope, sort, page, items⟩ =>
    have hread : scope.Fits (Allows policy) scope.relationship.isSome ∧
        ∀ key ∈ sort, key.target.Fits (Allows policy) scope.relationship.isSome :=
      h _ List.mem_cons_self
    refine (grants_scopeMatch hread.1).bind fun found => ?_
    refine (grants_edgeList (obeys_edgeMap ctx) items page).bind fun l => ?_
    refine (grants_entries ctx l.2 hread.2 items fun p hp =>
      h p (List.mem_cons_of_mem _ hp)).bind fun r => grants_pure fun hr hl hfound => ?_
    exact (hr hl.2).answer (stillList_append.mpr ⟨hfound, hl.1⟩) ctx.result place
  | .composite ⟨composite, relationship, branches, sort, page⟩ =>
    have hbranches : ∀ b ∈ branches, b.Fits (Allows policy) false := fun b hb =>
      ((h _ List.mem_cons_self : Lookup.Fits _ (.composite _)) b hb).1
    refine (grants_fresh (by decide)).skip fun column => (grants_sortColumns sort).skip ?_
    intro columns
    refine (grants_branches ctx column columns true branches hbranches fun p hp =>
      h p (List.mem_cons_of_mem _ hp)).bind fun bodies => ?_
    refine (grants_lift fun union hunion => hunion).bind fun union => ?_
    refine (grants_mergedWindow column sort columns page).bind fun window => ?_
    refine grants_pure fun hwindow hunion hbodies => ?_
    have hbefore : StillList policy (union :: window) :=
      stillList_cons.mpr ⟨still_unionCall hbodies hunion, hwindow⟩
    exact answer_compositeResult hbefore ctx relationship column place
  | .compositeConnection ⟨composite, relationship, branches, sort, page, items⟩ =>
    have hbranches : ∀ b ∈ branches, b.read.Fits (Allows policy) relationship.isSome := fun b hb =>
      ((h _ List.mem_cons_self : Lookup.Fits _ (.compositeConnection _)) b hb).1
    refine (grants_fresh (by decide)).skip fun column => (grants_sortColumns sort).skip ?_
    intro columns
    refine (grants_connectionBranches ctx column columns true branches hbranches fun p hp =>
      h p (List.mem_cons_of_mem _ hp)).bind fun bodies => ?_
    refine (grants_lift fun union hunion => hunion).bind fun union => ?_
    refine (grants_edgeList (obeys_var column) items page).bind fun l => ?_
    refine (grants_mergedEntries composite.name sort columns items).bind fun r => ?_
    refine grants_pure fun hr hl hunion hbodies => ?_
    have hbefore : StillList policy (union :: l.1) :=
      stillList_cons.mpr ⟨still_unionCall hbodies hunion, hl.1⟩
    exact (hr hl.2).answer hbefore ctx.result place
theorem grants_entries (ctx : Context) (l : EdgeList) {sort : List SortKey} {edges : Bool}
    (hsort : ∀ key ∈ sort, key.target.Fits (Allows policy) edges)
    (items : List (ConnectionItem Field))
    (h : ∀ p ∈ Field.itemParts items, p.Fits (Allows policy)) :
    Grants policy (fun r => l.bounds.All (Expr.Obeys policy) → ObeyEntries policy r)
      (Field.entries ctx l sort items) := by
  match items with
  | [] => exact grants_pure fun _ => obeyEntries_nil
  | .edges key node properties typename :: rest =>
    refine (grants_fresh (by decide)).skip fun result => (grants_fresh (by decide)).skip ?_
    intro edge
    refine (grants_orderedWindow hsort l.bounds).bind fun window => ?_
    refine (grants_nodeEntry ctx node fun p hp => h p (List.mem_append_left _ hp)).bind ?_
    intro shown
    refine Grants.bind (p := fun entries => ∀ entry ∈ entries, entry.2.Obeys policy)
      ?_ fun entries => ?_
    · cases properties with
      | none => exact grants_pure (by simp)
      | some _ => exact grants_lift fun entries h => obeys_edgeEntry h
    refine (grants_entries ctx l hsort rest fun p hp => h p (List.mem_append_right _ hp)).bind ?_
    refine fun more => grants_pure fun hmore hentries hshown hwindow hb => ?_
    have hall : ∀ entry ∈ shown.2 ++ entries, entry.2.Obeys policy :=
      List.forall_mem_append.mpr ⟨hshown.2, hentries⟩
    have hbefore : StillList policy (unpackEdge ctx l.edges edge ++ window ++ shown.1) :=
      stillList_append.mpr ⟨stillList_append.mpr ⟨still_unpackEdge _ _ _, hwindow hb⟩, hshown.1⟩
    have hcall := still_edgesCall hall [l.edges] hbefore typename result
    have hcalls : StillList policy [_] := stillList_cons.mpr ⟨hcall, stillList_nil⟩
    exact ObeyEntries.cons hcalls (obeys_var result) (hmore hb) key
  | .aggregate key aggregates :: rest =>
    refine (grants_aggregateEntries (grants_edgeMeasureCall l.edges) aggregates).bind ?_
    intro group
    refine (grants_entries ctx l hsort rest h).bind fun more => ?_
    refine grants_pure fun hmore hgroup hb => ?_
    exact .cons hgroup.1 (obeys_map.mpr hgroup.2) (hmore hb) key
  | .totalCount key :: rest =>
    refine (grants_entries ctx l hsort rest h).bind fun more => grants_pure fun hmore hb => ?_
    exact ObeyEntries.cons stillList_nil (obeys_var _) (hmore hb) key
  | .pageInfo key fields :: rest =>
    refine (grants_entries ctx l hsort rest h).bind fun more => grants_pure fun hmore hb => ?_
    exact ObeyEntries.cons stillList_nil (obeys_pageInfoMap hb fields) (hmore hb) key
  | .typename key typeName :: rest =>
    refine (grants_entries ctx l hsort rest h).bind fun more => grants_pure fun hmore hb => ?_
    exact ObeyEntries.cons stillList_nil (obeys_literal _) (hmore hb) key
theorem grants_nodeEntry (ctx : Context) (node : Option (String × List Field))
    (h : ∀ p ∈ Field.nodeParts node, p.Fits (Allows policy)) :
    Grants policy (ObeyEntries policy) (Field.nodeEntry ctx node) := by
  match node with
  | none => exact grants_pure obeyEntries_nil
  | some (key, fields) =>
    refine (grants_items ctx fields h).bind fun r => grants_pure fun hr => ⟨hr.1, ?_⟩
    exact obeys_entries (obeys_items hr.2)
theorem grants_branches (ctx : Context) (column : String) (columns : List String) (isFirst : Bool)
    (branches : List (Read Field)) {edges : Bool}
    (hbranches : ∀ b ∈ branches, b.Fits (Allows policy) edges)
    (h : ∀ p ∈ Field.branchParts branches, p.Fits (Allows policy)) :
    Grants policy (fun bodies => ∀ body ∈ bodies, Branch policy body)
      (Field.branches ctx column columns isFirst branches) := by
  match branches with
  | [] => exact grants_pure (by simp)
  | ⟨scope, fields, sort, page⟩ :: rest =>
    have hread : Read.Fits (Allows policy) edges ⟨scope, fields, sort, page⟩ :=
      hbranches _ List.mem_cons_self
    refine (grants_branchContext isFirst).skip fun own => grants_importParent.bind fun start => ?_
    refine (grants_distinctNodes hread.scope).bind fun found => ?_
    refine (grants_items own fields fun p hp => h p (List.mem_append_left _ hp)).bind ?_
    refine fun shown => (grants_branchKeys hread.sort columns).bind fun keys => ?_
    refine (grants_branches ctx column columns false rest
      (fun b hb => hbranches b (List.mem_cons_of_mem _ hb)) fun p hp =>
        h p (List.mem_append_right _ hp)).bind fun bodies => ?_
    refine grants_pure fun hbodies hkeys hshown hfound hstart => ?_
    refine List.forall_mem_cons.mpr ⟨?_, hbodies⟩
    have hbefore : StillList policy (start ++ found ++ shown.1 ++ keys.1) := by
      simp [hstart, hfound, hshown.1, hkeys.1]
    have hpairs : ∀ p ∈ (column, Expr.projection own.subject shown.2) :: keys.2,
        p.2.Obeys policy :=
      List.forall_mem_cons.mpr ⟨obeys_items hshown.2, hkeys.2⟩
    exact branch_giveAll hbefore hpairs
theorem grants_connectionBranches (ctx : Context) (column : String) (columns : List String)
    (isFirst : Bool) (branches : List (ConnectionBranch Field)) {edges : Bool}
    (hbranches : ∀ b ∈ branches, b.read.Fits (Allows policy) edges)
    (h : ∀ p ∈ Field.connectionBranchParts branches, p.Fits (Allows policy)) :
    Grants policy (fun bodies => ∀ body ∈ bodies, Branch policy body)
      (Field.connectionBranches ctx column columns isFirst branches) := by
  match branches with
  | [] => exact grants_pure (by simp)
  | ⟨⟨scope, fields, sort, page⟩, edgeFields⟩ :: rest =>
    have hread : Read.Fits (Allows policy) edges ⟨scope, fields, sort, page⟩ :=
      hbranches _ List.mem_cons_self
    refine (grants_branchContext isFirst).skip fun own => grants_importParent.bind fun start => ?_
    refine (grants_scopeMatch hread.scope).bind fun found => ?_
    refine (grants_items own fields fun p hp => h p (List.mem_append_left _ hp)).bind ?_
    refine fun shown => Grants.bind (p := fun entries => ∀ entry ∈ entries, entry.2.Obeys policy)
      ?_ fun properties => ?_
    · cases own.relationship with
      | none => exact grants_pure (by simp)
      | some _ => exact grants_lift fun entries h => obeys_edgeEntry h
    refine (grants_branchKeys hread.sort columns).bind fun keys => ?_
    refine (grants_connectionBranches ctx column columns false rest
      (fun b hb => hbranches b (List.mem_cons_of_mem _ hb)) fun p hp =>
        h p (List.mem_append_right _ hp)).bind fun bodies => ?_
    refine grants_pure fun hbodies hkeys hproperties hshown hfound hstart => ?_
    refine List.forall_mem_cons.mpr ⟨?_, hbodies⟩
    have hbefore : StillList policy (start ++ found ++ shown.1 ++ keys.1) := by
      simp [hstart, hfound, hshown.1, hkeys.1]
    have hmap : (Expr.map (("node", .projection own.subject shown.2) :: properties ++
        keys.2)).Obeys policy :=
      obeys_map.mpr (List.forall_mem_append.mpr
        ⟨List.forall_mem_cons.mpr ⟨obeys_items hshown.2, hproperties⟩, hkeys.2⟩)
    have hpairs : ∀ p ∈ [(column, Expr.map _)], p.2.Obeys policy := obeys_entries hmap
    exact branch_giveAll hbefore hpairs
end

end Fields

end GraphSelection.Program
