import GraphSelection.Proofs.Rows.Scopes
import GraphSelection.Proofs.WellScoped

/-!
Calls leave the rows of their parent in place. The call of a nested field ends in a collection or
starts from one, a nested change ends in a count, and a new node is written without any row being
lost or doubled; so every call of a program returns one row for every row that enters it, whatever
the graph holds. Only the call that merges the branches of a composite and the one that runs a
statement of the schema return as many rows as they find, and each stands at the head of a body that
collects them.
-/
namespace GraphSelection.Program

open Cypher Plan

section Edges

variable {ctx : Context}

theorem steady_unpackEdge (ctx : Context) (edges edge : String) :
    Steady (unpackEdge ctx edges edge) := by
  refine Steady.cons (fun _ hbody => absurd hbody List.not_mem_nil) (steady_carryOnly ?_)
  intro c hc
  rcases List.mem_cons.mp hc with rfl | hc
  · exact rfl
  · obtain ⟨r, _, rfl⟩ := Option.map_eq_some_iff.mp (Option.mem_toList.mp hc)
    exact rfl

theorem ensures_edgeMeasureCall (edges : String) (m : Measure) (result : String) :
    Ensures SingleCall (edgeMeasureCall ctx edges m result) := by
  refine ensures_skip _ fun edge => ?_
  refine (ensures_lift fun reduced h => measured_aggregate h).bind fun reduced hreduced => ?_
  obtain ⟨hbefore, hgrain, hcalls⟩ := hreduced
  refine ensures_pure (singleCall_of_gathers ((gathers_give hgrain result).after _) ?_)
  exact ((steady_unpackEdge _ _ _).append hbefore).append (steady_give hcalls result)

/-- The edges are collected into one row, and it stays one. -/
theorem ensures_edgeList {φ : Type} {edge : Expr} (hedge : edge.calls = [])
    (items : List (ConnectionItem φ)) (page : Page) :
    Ensures (fun r => Steady r.1 ∧ Gathers r.1 ∧ r.2.bounds.All Expr.Simple)
      (edgeList edge items page) := by
  have hcollect : ∀ edges total : String, Steady (collectEdges edge edges total) ∧
      Gathers (collectEdges edge edges total) := by
    intro edges total
    have hfirst : Gathers [.carryOnly [Column.named (.apply "collect" [edge]) edges]] :=
      gathers_carry rfl edges
    constructor
    · refine (steady_carryOnly fun c hc => ?_).before (steady_carryOnly fun c hc => ?_)
      · rw [List.mem_singleton] at hc
        rw [hc]
        simp [Column.named, Expr.calls, Expr.callsOf, hedge]
      · simp only [List.mem_cons, List.not_mem_nil, or_false] at hc
        rcases hc with rfl | rfl <;> exact rfl
    · refine hfirst.keeps (keeps_carryOnly fun c hc => ?_)
      simp only [List.mem_cons, List.not_mem_nil, or_false] at hc
      rcases hc with rfl | rfl <;> exact rfl
  refine ensures_skip _ fun edges => ensures_skip _ fun total => ?_
  obtain ⟨hsteady, hgathers⟩ := hcollect edges total
  split
  · exact (ensures_bounds simple_param page).bind fun b hb => ensures_pure ⟨hsteady, hgathers, hb⟩
  · exact ensures_pure ⟨hsteady, hgathers, Bounds.all_whole⟩

theorem simple_binary {left right : Expr} (op : BinaryOp) (hl : left.Simple) (hr : right.Simple) :
    (Expr.binary left op right).Simple := by
  constructor
  · rw [Expr.grain, Grain.isPlain_join, hl.grain, hr.grain]
    rfl
  · rw [Expr.calls, hl.calls, hr.calls, List.append_nil]

theorem simple_pageInfo {l : EdgeList} (hb : l.bounds.All Expr.Simple) (field : PageInfoField) :
    (l.pageInfo field).2.Simple := by
  cases field with
  | hasNextPage key =>
    change l.hasNextPage.Simple
    unfold EdgeList.hasNextPage
    split
    · exact ⟨rfl, rfl⟩
    · rename_i limit hlimit
      have hlast : limit.Simple := hb.limit limit hlimit
      dsimp only
      split
      · rename_i skip hskip
        have hfirst : skip.Simple := hb.skip skip hskip
        exact simple_binary _ (simple_binary _ hfirst hlast) (simple_var _)
      · exact simple_binary _ hlast (simple_var _)
  | hasPreviousPage key =>
    change l.hasPreviousPage.Simple
    unfold EdgeList.hasPreviousPage
    split
    · rename_i skip hskip
      exact simple_binary _ (hb.skip skip hskip) ⟨rfl, rfl⟩
    · exact ⟨rfl, rfl⟩
  | typename key => exact simple_string _

theorem simple_pageInfoMap {l : EdgeList} (hb : l.bounds.All Expr.Simple)
    (fields : List PageInfoField) : (Expr.map (fields.map l.pageInfo)).Simple := by
  refine simple_map fun entry hentry => ?_
  obtain ⟨field, _, rfl⟩ := List.mem_map.mp hentry
  exact simple_pageInfo hb field

end Edges

section Branches

variable {ctx : Context}

/-- Steady branches are merged at the head of a steady body. -/
theorem steadyBody_unionCall {composite column : String} {bodies : List (List Clause)}
    (hbodies : ∀ b ∈ bodies, Steady b) {clause : Clause}
    (h : unionCall composite bodies column = .ok clause) {rest : List Clause}
    (hrest : Steady rest) : SteadyBody (clause :: rest) := by
  unfold unionCall at h
  split at h
  · cases h
    exact ((steady_of_callless rfl).before hrest).body
  · split at h
    · cases h
    · cases h
      exact steadyBody_union hbodies hrest

theorem ensures_mergedWindow (column : String) (sort : List SortKey) (columns : List String)
    (page : Page) : Ensures Steady (mergedWindow column sort columns page) := by
  unfold mergedWindow
  split
  · exact ensures_pure steady_nil
  · refine (ensures_bounds simple_param page).bind fun b hb => ensures_pure ?_
    refine steady_ordered (fun c hc => ?_) (fun key hkey => ?_) hb
    · rcases List.mem_cons.mp hc with rfl | hc
      · exact rfl
      · obtain ⟨name, _, rfl⟩ := List.mem_map.mp hc
        exact rfl
    · obtain ⟨pair, _, rfl⟩ := List.mem_map.mp hkey
      exact rfl

theorem ensures_branchKeys (sort : List SortKey) (columns : List String) :
    Ensures Entered (branchKeys ctx sort columns) := by
  refine (ensures_sortValues _).bind fun r hr => ensures_pure ⟨hr.1, fun entry hentry => ?_⟩
  obtain ⟨key, hkey, hsame⟩ := List.mem_map.mp (List.of_mem_zip hentry).2
  exact hsame ▸ hr.2 key hkey

theorem simple_edgesEntries {entries : List (String × Expr)} (h : ∀ p ∈ entries, p.2.Simple)
    (typename : Option (String × String)) :
    (Expr.map (entries ++
      (typename.map fun (key, name) => (key, Expr.string name)).toList)).Simple := by
  refine simple_map fun entry hentry => ?_
  rcases List.mem_append.mp hentry with hentry | hentry
  · exact h entry hentry
  · obtain ⟨pair, _, rfl⟩ := Option.map_eq_some_iff.mp (Option.mem_toList.mp hentry)
    exact simple_string _

/-- The edges of a page are collected. -/
theorem singleCall_edges {entries : List (String × Expr)} (h : ∀ p ∈ entries, p.2.Simple)
    (imports : List String) {before : List Clause} (hbefore : Steady before)
    (typename : Option (String × String)) (result : String) :
    SingleCall (.call imports (before ++ [edgesResult entries typename result])) := by
  have hmap := simple_edgesEntries h typename
  refine singleCall_of_gathers ((gathers_give rfl result).after before) ?_
  refine hbefore.append (steady_give ?_ result)
  rw [Expr.calls, Expr.callsOf, Expr.callsOf, hmap.calls, List.append_nil]

theorem ensures_mergedEdgesCall {l : EdgeList} (hb : l.bounds.All Expr.Simple) (sort : List SortKey)
    (columns : List String) (node properties : Option String)
    (typename : Option (String × String)) :
    Ensures (fun r => SingleCalls r.1 ∧ r.2.Simple)
      (mergedEdgesCall l sort columns node properties typename) := by
  refine ensures_skip _ fun result => ensures_skip _ fun edge => ensures_pure ?_
  refine ⟨singleCalls_single (singleCall_edges (fun entry hentry => ?_) _ ?_ _ result),
    simple_var result⟩
  · rcases List.mem_append.mp hentry with hentry | hentry
    all_goals
      obtain ⟨key, _, rfl⟩ := Option.map_eq_some_iff.mp (Option.mem_toList.mp hentry)
      exact simple_propertyOf ..
  · refine Steady.cons (fun _ hbody => absurd hbody List.not_mem_nil) ?_
    split
    · exact steady_nil
    · refine steady_ordered (fun c hc => ?_) (fun key hkey => ?_) hb
      · rw [List.mem_singleton] at hc
        exact hc ▸ rfl
      · obtain ⟨pair, _, rfl⟩ := List.mem_map.mp hkey
        exact rfl

theorem Entered.cons {calls : List Clause} {e : Expr} {r : List Clause × List (String × Expr)}
    (hcalls : SingleCalls calls) (he : e.Simple) (hr : Entered r) (key : String) :
    Entered (calls ++ r.1, (key, e) :: r.2) := by
  refine ⟨hcalls.append hr.1, fun entry hentry => ?_⟩
  rcases List.mem_cons.mp hentry with rfl | hentry
  · exact he
  · exact hr.2 entry hentry

theorem entered_nil : Entered ([], []) :=
  ⟨singleCalls_nil, fun _ hentry => absurd hentry List.not_mem_nil⟩

theorem ensures_mergedEntries {φ : Type} {l : EdgeList} (hb : l.bounds.All Expr.Simple)
    (composite : String) (sort : List SortKey) (columns : List String)
    (items : List (ConnectionItem φ)) :
    Ensures Entered (mergedEntries l composite sort columns items) := by
  induction items with
  | nil => exact ensures_pure entered_nil
  | cons item rest ih =>
    refine Ensures.bind (p := fun r => SingleCalls r.1 ∧ r.2.Simple) ?_ fun first hfirst => ?_
    · cases item with
      | edges key node properties typename => exact ensures_mergedEdgesCall hb ..
      | aggregate key items => exact ensures_fail _
      | totalCount key => exact ensures_pure ⟨singleCalls_nil, simple_var _⟩
      | pageInfo key fields => exact ensures_pure ⟨singleCalls_nil, simple_pageInfoMap hb fields⟩
      | typename key typeName => exact ensures_pure ⟨singleCalls_nil, simple_string _⟩
    · exact ih.bind fun more hmore => ensures_pure (Entered.cons hfirst.1 hfirst.2 hmore _)

end Branches

section Fields

theorem simple_shownValue (a : Attribute) {e : Expr} (h : e.Simple) : (shownValue a e).Simple := by
  unfold shownValue
  split
  · exact h
  · split
    · exact simple_apply rfl h
    · split
      · constructor
        · simp only [Expr.grain, Expr.grainOfEntries, Expr.null, Grain.isPlain_join, h.grain]
          rfl
        · simp [Expr.calls, Expr.callsOfEntries, h.calls, Expr.null]
      · exact h

theorem simple_storedItem (name key : String) (a : Attribute) :
    ∀ key' e, storedItem name key a = .entry key' e → e.Simple := by
  intro key' e h
  unfold storedItem at h
  dsimp only at h
  split at h
  · cases h
  · cases h
    exact simple_shownValue a (simple_propertyOf ..)

theorem simple_edgeProjection {ctx : Context} {fields : List EdgeField} {e : Expr}
    (h : edgeProjection ctx fields = .ok e) : e.Simple := by
  simp only [edgeProjection, except_bind_ok, except_pure_ok] at h
  obtain ⟨edge, _, rfl⟩ := h
  refine simple_projection edge fun key value hitem => ?_
  obtain ⟨field, _, hfield⟩ := List.mem_map.mp hitem
  cases field with
  | stored own a => exact simple_storedItem edge own a key value hfield
  | typename own typeName =>
    cases hfield
    exact simple_string _

/-- A call of one row and the variable of its result. -/
theorem ensures_nestedCall {ctx : Context} {body : Context → Build (List Clause)}
    (h : ∀ inner, Ensures (fun cs => SteadyBody cs ∧ OneRow cs) (body inner)) :
    Ensures (fun r => SingleCalls r.1 ∧ r.2.Simple) (nestedCall ctx body) := by
  refine ensures_skip _ fun edge => ensures_skip _ fun node => ensures_skip _ fun result => ?_
  refine (h _).bind fun clauses hclauses => ensures_pure ⟨?_, simple_var result⟩
  exact singleCalls_single ⟨_, clauses, rfl, hclauses.2, hclauses.1⟩

theorem readResult_ok (ctx : Context) (scope : Scope) {projection : Expr}
    (h : projection.calls = []) :
    Steady (readResult ctx scope projection) ∧
      (scope.relationship.isSome = true → Gathers (readResult ctx scope projection)) := by
  unfold readResult
  split
  · rename_i hnone
    refine ⟨steady_give h _, fun hsome => ?_⟩
    rw [hnone] at hsome
    cases hsome
  · rename_i r _
    have hend : Gathers [.give (collected (.var ctx.subject) r.isList) ctx.result] :=
      gathers_give (grain_collected ..) _
    refine ⟨(steady_carryOnly fun c hc => ?_).before ?_, fun _ => hend.after [_]⟩
    · rw [List.mem_singleton] at hc
      exact hc ▸ h
    · exact steady_give (calls_collected rfl _) _

theorem compositeResult_ok (ctx : Context) (relationship : Option Relationship)
    (column : String) :
    Steady [compositeResult ctx relationship column] ∧
      (relationship.isSome = true → Gathers [compositeResult ctx relationship column]) := by
  unfold compositeResult
  split
  · exact ⟨steady_give rfl _, fun hsome => nomatch hsome⟩
  · exact ⟨steady_give (calls_collected rfl _) _, fun _ => gathers_give (grain_collected ..) _⟩

theorem simple_edgeMap (ctx : Context) : (edgeMap ctx).Simple := by
  refine simple_map fun entry hentry => ?_
  rcases List.mem_cons.mp hentry with rfl | hentry
  · exact simple_var _
  · obtain ⟨r, _, rfl⟩ := Option.map_eq_some_iff.mp (Option.mem_toList.mp hentry)
    exact simple_var _

/-- Fields that lie behind a relationship. -/
def Behind (part : Part) : Prop :=
  match part with
  | .field (.lookup _ l) => l.relationship?.isSome = true
  | _ => True

mutual
theorem ensures_item (ctx : Context) (f : Field) (h : ∀ part ∈ f.parts, Behind part) :
    Ensures (fun r => SingleCalls r.1 ∧ ∀ key e, r.2 = .entry key e → e.Simple)
      (Field.item ctx f) := by
  match f with
  | .stored key a => exact ensures_pure ⟨singleCalls_nil, simple_storedItem _ _ _⟩
  | .typename key typeName =>
    refine ensures_pure ⟨singleCalls_nil, fun key' e he => ?_⟩
    cases he
    exact simple_string _
  | .computed key a =>
    refine ensures_skip _ fun name => (ensures_computedCall a name).bind fun call hcall => ?_
    refine ensures_pure ⟨singleCalls_single hcall, fun key' e he => ?_⟩
    cases he
    exact simple_var _
  | .lookup key l =>
    have hbehind : l.relationship?.isSome = true := h _ List.mem_cons_self
    refine (ensures_nestedCall fun inner => ?_).bind fun r hr => ensures_pure ⟨hr.1, ?_⟩
    · refine (ensures_lookupClauses inner l fun part hpart =>
        h part (List.mem_cons_of_mem _ hpart)).mono fun cs hcs => ⟨hcs.1, hcs.2 hbehind⟩
    · intro key' e he
      cases he
      exact hr.2
  | .aggregate key a =>
    refine (ensures_nestedCall fun inner => ?_).bind fun r hr => ?_
    · exact (ensures_aggregateClauses a).mono fun cs hcs => ⟨hcs.1.body, hcs.2⟩
    refine ensures_pure ⟨hr.1, fun key' e he => ?_⟩
    cases he
    exact hr.2
theorem ensures_items (ctx : Context) (fields : List Field)
    (h : ∀ part ∈ Field.partsOf fields, Behind part) :
    Ensures (fun r => SingleCalls r.1 ∧ SimpleItems r.2) (Field.items ctx fields) := by
  match fields with
  | [] => exact ensures_pure ⟨singleCalls_nil, fun key e he => absurd he List.not_mem_nil⟩
  | f :: rest =>
    refine (ensures_item ctx f fun part hpart => h part (List.mem_append_left _ hpart)).bind ?_
    intro first hfirst
    refine (ensures_items ctx rest fun part hpart => h part (List.mem_append_right _ hpart)).bind ?_
    intro more hmore
    refine ensures_pure ⟨hfirst.1.append hmore.1, fun key e he => ?_⟩
    rcases List.mem_cons.mp he with he | he
    · exact hfirst.2 key e he.symm
    · exact hmore.2 key e he
theorem ensures_lookupClauses (ctx : Context) (l : Lookup Field)
    (h : ∀ part ∈ Field.lookupParts l, Behind part) :
    Ensures (fun cs => SteadyBody cs ∧ (l.relationship?.isSome = true → OneRow cs))
      (Field.lookupClauses ctx l) := by
  match l with
  | .read ⟨scope, fields, sort, page⟩ =>
    refine (ensures_distinctNodes scope).bind fun found hfound => ?_
    refine (ensures_arranged sort page).bind fun window hwindow => ?_
    refine (ensures_items ctx fields fun part hpart =>
      h part (List.mem_cons_of_mem _ hpart)).bind fun r hr => ensures_pure ?_
    obtain ⟨hsteady, hgathers⟩ := readResult_ok ctx scope (simple_projection ctx.subject hr.2).calls
    have hall := ((hfound.append hwindow).append hr.1.steady).append hsteady
    refine ⟨hall.body, fun hsome => ?_⟩
    exact ((hgathers hsome).after _).oneRow
  | .connection ⟨scope, sort, page, items⟩ =>
    refine (ensures_scopeMatch scope).bind fun found hfound => ?_
    refine (ensures_edgeList (simple_edgeMap ctx).calls items page).bind fun l hl => ?_
    obtain ⟨hcollect, hgathers, hbounds⟩ := hl
    refine (ensures_entries ctx l.2 hbounds sort items fun part hpart =>
      h part (List.mem_cons_of_mem _ hpart)).bind fun r hr => ensures_pure ?_
    obtain ⟨hsteady, hkeeps⟩ := hr.gives ctx.result
    have hrows : Gathers (found ++ l.1 ++ (r.1 ++ [.give (.map r.2) ctx.result])) :=
      (hgathers.after found).keeps hkeeps
    rw [← List.append_assoc] at hrows
    refine ⟨?_, fun _ => hrows.oneRow⟩
    rw [List.append_assoc]
    exact ((hfound.append hcollect).append hsteady).body
  | .composite ⟨composite, relationship, branches, sort, page⟩ =>
    refine ensures_skip _ fun column => ensures_skip _ fun columns => ?_
    refine (ensures_branches ctx column columns true branches fun part hpart =>
      h part (List.mem_cons_of_mem _ hpart)).bind fun bodies hbodies => ?_
    refine (ensures_lift fun union hunion => hunion).bind fun union hunion => ?_
    refine (ensures_mergedWindow column sort columns page).bind fun window hwindow => ?_
    obtain ⟨hsteady, hgathers⟩ := compositeResult_ok ctx relationship column
    have hrest := hwindow.append hsteady
    refine ensures_pure ⟨steadyBody_unionCall hbodies hunion hrest, fun hsome => ?_⟩
    exact ((hgathers hsome).after (union :: window)).oneRow
  | .compositeConnection ⟨composite, relationship, branches, sort, page, items⟩ =>
    refine ensures_skip _ fun column => ensures_skip _ fun columns => ?_
    refine (ensures_connectionBranches ctx column columns true branches fun part hpart =>
      h part (List.mem_cons_of_mem _ hpart)).bind fun bodies hbodies => ?_
    refine (ensures_lift fun union hunion => hunion).bind fun union hunion => ?_
    refine (ensures_edgeList (simple_var column).calls items page).bind fun l hl => ?_
    obtain ⟨hcollect, hgathers, hbounds⟩ := hl
    refine (ensures_mergedEntries hbounds composite.name sort columns items).bind fun r hr => ?_
    obtain ⟨hsteady, hkeeps⟩ := hr.gives ctx.result
    have hrows : Gathers ((union :: l.1) ++ (r.1 ++ [.give (.map r.2) ctx.result])) :=
      (hgathers.after [union]).keeps hkeeps
    rw [← List.append_assoc] at hrows
    refine ensures_pure ⟨?_, fun _ => hrows.oneRow⟩
    rw [List.append_assoc]
    exact steadyBody_unionCall hbodies hunion (hcollect.append hsteady)
theorem ensures_entries (ctx : Context) (l : EdgeList) (hb : l.bounds.All Expr.Simple)
    (sort : List SortKey) (items : List (ConnectionItem Field))
    (h : ∀ part ∈ Field.itemParts items, Behind part) :
    Ensures Entered (Field.entries ctx l sort items) := by
  match items with
  | [] => exact ensures_pure entered_nil
  | .edges key node properties typename :: rest =>
    refine ensures_skip _ fun result => ensures_skip _ fun edge => ?_
    refine (ensures_orderedWindow sort hb).bind fun window hwindow => ?_
    refine (ensures_nodeEntry ctx node fun part hpart =>
      h part (List.mem_append_left _ hpart)).bind fun shown hshown => ?_
    refine (ensures_lift (p := fun entries => ∀ entry ∈ entries, entry.2.Simple) ?_).bind
      fun entries hentries => ?_
    · match properties with
      | none =>
        intro entries hentries
        rw [except_pure_ok] at hentries
        exact hentries ▸ fun entry hentry => absurd hentry List.not_mem_nil
      | some (own, fields) =>
        intro entries hentries
        simp only [except_bind_ok, except_pure_ok] at hentries
        obtain ⟨e, he, rfl⟩ := hentries
        intro entry hentry
        rw [List.mem_singleton] at hentry
        exact hentry ▸ simple_edgeProjection he
    · refine (ensures_entries ctx l hb sort rest fun part hpart =>
        h part (List.mem_append_right _ hpart)).bind fun more hmore => ensures_pure ?_
      refine Entered.cons (singleCalls_single ?_) (simple_var result) hmore key
      refine singleCall_edges (fun entry hentry => ?_) _ ?_ typename result
      · rcases List.mem_append.mp hentry with hentry | hentry
        · exact hshown.2 entry hentry
        · exact hentries entry hentry
      · exact ((steady_unpackEdge _ _ _).append hwindow).append hshown.1.steady
  | .aggregate key aggregates :: rest =>
    refine (ensures_aggregateEntries (ensures_edgeMeasureCall l.edges) aggregates).bind
      fun group hgroup => ?_
    refine (ensures_entries ctx l hb sort rest h).bind fun more hmore => ensures_pure ?_
    exact Entered.cons hgroup.1 (simple_map hgroup.2) hmore key
  | .totalCount key :: rest =>
    refine (ensures_entries ctx l hb sort rest h).bind fun more hmore => ensures_pure ?_
    exact Entered.cons singleCalls_nil (simple_var _) hmore key
  | .pageInfo key fields :: rest =>
    refine (ensures_entries ctx l hb sort rest h).bind fun more hmore => ensures_pure ?_
    exact Entered.cons singleCalls_nil (simple_pageInfoMap hb fields) hmore key
  | .typename key typeName :: rest =>
    refine (ensures_entries ctx l hb sort rest h).bind fun more hmore => ensures_pure ?_
    exact Entered.cons singleCalls_nil (simple_string _) hmore key
theorem ensures_nodeEntry (ctx : Context) (node : Option (String × List Field))
    (h : ∀ part ∈ Field.nodeParts node, Behind part) :
    Ensures Entered (Field.nodeEntry ctx node) := by
  match node with
  | none => exact ensures_pure entered_nil
  | some (key, fields) =>
    refine (ensures_items ctx fields h).bind fun r hr => ensures_pure ⟨hr.1, fun entry hentry => ?_⟩
    rw [List.mem_singleton] at hentry
    exact hentry ▸ simple_projection _ hr.2
theorem ensures_branches (ctx : Context) (column : String) (columns : List String) (isFirst : Bool)
    (branches : List (Read Field)) (h : ∀ part ∈ Field.branchParts branches, Behind part) :
    Ensures (fun bodies => ∀ body ∈ bodies, Steady body)
      (Field.branches ctx column columns isFirst branches) := by
  match branches with
  | [] => exact ensures_pure fun body hbody => absurd hbody List.not_mem_nil
  | ⟨scope, fields, sort, page⟩ :: rest =>
    refine ensures_skip _ fun own => ensures_importParent.bind fun start hstart => ?_
    refine (ensures_distinctNodes scope).bind fun found hfound => ?_
    refine (ensures_items own fields fun part hpart =>
      h part (List.mem_append_left _ hpart)).bind fun shown hshown => ?_
    refine (ensures_branchKeys sort columns).bind fun keys hkeys => ?_
    refine (ensures_branches ctx column columns false rest fun part hpart =>
      h part (List.mem_append_right _ hpart)).bind fun bodies hbodies => ensures_pure ?_
    intro body hbody
    rcases List.mem_cons.mp hbody with rfl | hbody
    · refine (((hstart.append hfound).append hshown.1.steady).append hkeys.1.steady).append ?_
      refine steady_giveAll fun c hc => ?_
      rcases List.mem_cons.mp hc with rfl | hc
      · exact (simple_projection _ hshown.2).calls
      · obtain ⟨entry, hentry, rfl⟩ := List.mem_map.mp hc
        exact (hkeys.2 entry hentry).calls
    · exact hbodies body hbody
theorem ensures_connectionBranches (ctx : Context) (column : String) (columns : List String)
    (isFirst : Bool) (branches : List (ConnectionBranch Field))
    (h : ∀ part ∈ Field.connectionBranchParts branches, Behind part) :
    Ensures (fun bodies => ∀ body ∈ bodies, Steady body)
      (Field.connectionBranches ctx column columns isFirst branches) := by
  match branches with
  | [] => exact ensures_pure fun body hbody => absurd hbody List.not_mem_nil
  | ⟨⟨scope, fields, sort, page⟩, edgeFields⟩ :: rest =>
    refine ensures_skip _ fun own => ensures_importParent.bind fun start hstart => ?_
    refine (ensures_scopeMatch scope).bind fun found hfound => ?_
    refine (ensures_items own fields fun part hpart =>
      h part (List.mem_append_left _ hpart)).bind fun shown hshown => ?_
    refine (ensures_lift (p := fun entries => ∀ entry ∈ entries, entry.2.Simple) ?_).bind
      fun properties hproperties => ?_
    · intro properties hproperties
      split at hproperties
      · rw [except_pure_ok] at hproperties
        exact hproperties ▸ fun entry hentry => absurd hentry List.not_mem_nil
      · simp only [except_bind_ok, except_pure_ok] at hproperties
        obtain ⟨e, he, rfl⟩ := hproperties
        intro entry hentry
        rw [List.mem_singleton] at hentry
        exact hentry ▸ simple_edgeProjection he
    refine (ensures_branchKeys sort columns).bind fun keys hkeys => ?_
    refine (ensures_connectionBranches ctx column columns false rest fun part hpart =>
      h part (List.mem_append_right _ hpart)).bind fun bodies hbodies => ensures_pure ?_
    intro body hbody
    rcases List.mem_cons.mp hbody with rfl | hbody
    · refine (((hstart.append hfound).append hshown.1.steady).append hkeys.1.steady).append ?_
      refine steady_give (simple_map fun entry hentry => ?_).calls _
      rcases List.mem_cons.mp hentry with rfl | hentry
      · exact simple_projection _ hshown.2
      · rcases List.mem_append.mp hentry with hentry | hentry
        · exact hproperties entry hentry
        · exact hkeys.2 entry hentry
    · exact hbodies body hbody
end

end Fields

section Changes

theorem steady_carryAll : Steady [.carryAll] := steady_of_callless rfl

theorem steady_andThen {before after : List Clause} (h : Steady before) (h' : Steady after) :
    Steady (andThen before after) := by
  unfold Program.andThen
  split
  · exact h.append (steady_carryAll.before h')
  · exact h.append h'

theorem keeps_andThen {before after : List Clause} (h : Keeps before) (h' : Keeps after) :
    Keeps (andThen before after) := by
  unfold Program.andThen
  split
  · exact h.append (keeps_carryAll.append h')
  · exact h.append h'

/-- Assignments keep every row. -/
theorem ensures_assigned (name : String) (assignments : List Assignment) :
    Ensures (fun cs => Steady cs ∧ Keeps cs) (assigned name assignments) := by
  have hpairs : Ensures (fun pairs => Expr.callsOfPairs pairs = [])
      (assignmentList name assignments) := by
    induction assignments with
    | nil => exact ensures_pure rfl
    | cons a rest ih =>
      refine Ensures.bind (p := fun pair => pair.1.calls = [] ∧ pair.2.calls = []) ?_
        fun pair hpair => ih.bind fun pairs hpairs => ensures_pure ?_
      · exact (ensures_typedParam ..).bind fun value hvalue => ensures_pure ⟨rfl, hvalue.2⟩
      · obtain ⟨left, right⟩ := pair
        rw [Expr.callsOfPairs, hpair.1, hpair.2, hpairs, List.append_nil, List.append_nil]
  refine hpairs.bind fun pairs hpairs => ensures_pure ?_
  split
  · exact ⟨steady_nil, keeps_nil⟩
  · exact ⟨steady_of_callless hpairs, keeps_single fun n m h => h⟩

theorem ensures_linkedNodes (ctx child : Context) (link : Link) (filter : Option Condition) :
    Ensures Steady (linkedNodes ctx child link filter) :=
  ensures_skip _ fun _ => ensures_filteredMatch ..

/-- A nested change ends in a count. -/
theorem singleCall_counted (ctx : Context) {body : List Clause} (h : Steady body)
    (result : String) : SingleCall (counted ctx body result) :=
  singleCall_of_gathers ((gathers_give rfl result).after body) (h.append (steady_give rfl result))

theorem steady_write {c : Clause} (h : c.calls = []) {cs : List Clause} (hs : Steady cs) :
    Steady (c :: cs) :=
  (steady_of_callless h).append hs

theorem keeps_create (pattern : Pattern) : Keeps [.create pattern] :=
  keeps_single fun _ _ h => h

mutual
theorem ensures_clause (ctx : Context) (m : Mutation) :
    Ensures SingleCall (Mutation.clause ctx m) := by
  match m with
  | .create link ⟨assignments, nested, validations⟩ edgeAssignments =>
    refine ensures_skip _ fun edge => ensures_skip _ fun node => ensures_skip _ fun result => ?_
    refine (ensures_assigned node assignments).bind fun own hown => ?_
    refine (ensures_assigned edge edgeAssignments).bind fun onEdge honEdge => ?_
    have hwritten : Steady (.create (labelled node link.target) :: own ++
        .create (connection ctx.subject link.relationship edge node) :: onEdge) :=
      (steady_write rfl hown.1).append (steady_write rfl honEdge.1)
    refine (ensures_after _ hwritten nested).bind fun written hwritten => ?_
    refine (ensures_validated validations).bind fun checks hchecks => ensures_pure ?_
    exact singleCall_counted ctx (steady_andThen hwritten.1 hchecks.1) result
  | .connect link filter edgeAssignments validations =>
    refine ensures_skip _ fun edge => ensures_skip _ fun node => ensures_skip _ fun result => ?_
    refine (ensures_filteredMatch _ filter).bind fun found hfound => ?_
    refine (ensures_assigned edge edgeAssignments).bind fun onEdge honEdge => ?_
    refine (ensures_validated validations).bind fun checks hchecks => ensures_pure ?_
    have hmerge := steady_write
      (c := .merge (connection ctx.subject link.relationship edge node)) rfl honEdge.1
    have hwritten := hfound.append hmerge
    exact singleCall_counted ctx (steady_andThen hwritten hchecks.1) result
  | .disconnect link filter validations =>
    refine ensures_skip _ fun edge => ensures_skip _ fun node => ensures_skip _ fun result => ?_
    refine (ensures_linkedNodes ..).bind fun found hfound => ?_
    refine (ensures_validated validations).bind fun checks hchecks => ensures_pure ?_
    refine singleCall_counted ctx ((hfound.append hchecks.1).append ?_) result
    exact steady_of_callless rfl
  | .update link filter before nodeAssignments edgeAssignments after =>
    refine ensures_skip _ fun edge => ensures_skip _ fun node => ensures_skip _ fun result => ?_
    refine (ensures_linkedNodes ..).bind fun found hfound => ?_
    refine (ensures_validated before).bind fun first hfirst => ?_
    refine (ensures_assigned node nodeAssignments).bind fun own hown => ?_
    refine (ensures_assigned edge edgeAssignments).bind fun onEdge honEdge => ?_
    refine (ensures_validated after).bind fun last hlast => ensures_pure ?_
    have hwritten := ((hfound.append hfirst.1).append hown.1).append honEdge.1
    exact singleCall_counted ctx (steady_andThen hwritten hlast.1) result
  | .delete link filter before nested =>
    refine ensures_skip _ fun edge => ensures_skip _ fun node => ensures_skip _ fun result => ?_
    refine (ensures_linkedNodes ..).bind fun found hfound => ?_
    refine (ensures_validated before).bind fun first hfirst => ?_
    refine (ensures_after _ (hfound.append hfirst.1) nested).bind fun clauses hclauses => ?_
    refine ensures_pure (singleCall_counted ctx (steady_andThen hclauses.1 ?_) result)
    exact steady_of_callless rfl
theorem ensures_after (ctx : Context) {before : List Clause} (hbefore : Steady before)
    (ms : List Mutation) :
    Ensures (fun cs => Steady cs ∧ (Keeps before → Keeps cs)) (Mutation.after ctx before ms) := by
  match ms with
  | [] => exact ensures_pure ⟨hbefore, fun h => h⟩
  | m :: rest =>
    refine (ensures_clause ctx m).bind fun clause hclause => ?_
    refine (ensures_after ctx (steady_andThen hbefore hclause.steady) rest).mono fun cs hcs => ?_
    exact ⟨hcs.1, fun hkeeps => hcs.2 (keeps_andThen hkeeps hclause.keeps)⟩
end

/-- No row is lost and none is doubled while a new node is written. -/
theorem ensures_newNode (ctx : Context) (e : Entity) (n : NewNode Mutation) :
    Ensures (fun cs => Steady cs ∧ Keeps cs) (newNode ctx e n) := by
  refine (ensures_assigned ctx.subject n.assignments).bind fun own hown => ?_
  have hwritten : Steady (.create (labelled ctx.subject e) :: own) := steady_write rfl hown.1
  have hkept : Keeps (.create (labelled ctx.subject e) :: own) :=
    (keeps_create (labelled ctx.subject e)).append hown.2
  refine (ensures_after ctx hwritten n.nested).bind fun written hafter => ?_
  refine (ensures_validated n.validations).bind fun checks hchecks => ensures_pure ?_
  exact ⟨steady_andThen hafter.1 hchecks.1, keeps_andThen (hafter.2 hkept) hchecks.2⟩

theorem ensures_newNodes (ctx : Context) (e : Entity) (isFirst : Bool)
    (nodes : List (NewNode Mutation)) :
    Ensures (fun r => SingleCalls r.1) (newNodes ctx e isFirst nodes) := by
  induction nodes generalizing isFirst with
  | nil => exact ensures_pure singleCalls_nil
  | cons n rest ih =>
    refine ensures_skip _ fun own => (ensures_newNode own e n).bind fun body hbody => ?_
    refine (ih false).bind fun more hmore => ensures_pure ?_
    have hgive : Keeps [.giveAll [Column.var own.subject]] := by
      refine keeps_giveAll fun c hc => ?_
      rw [List.mem_singleton] at hc
      exact hc ▸ rfl
    have hsteady : Steady [.giveAll [Column.var own.subject]] := steady_of_callless rfl
    refine SingleCalls.cons ?_ hmore
    exact ⟨[], _, rfl, (hbody.2.append hgive).oneRow, (hbody.1.append hsteady).body⟩

theorem ensures_projections {fields : List Field}
    (h : ∀ part ∈ Field.partsOf fields, Behind part) (contexts : List Context) :
    Ensures (fun r => SingleCalls r.1 ∧ ∀ e ∈ r.2, e.calls = []) (projections fields contexts) := by
  induction contexts with
  | nil => exact ensures_pure ⟨singleCalls_nil, fun e he => absurd he List.not_mem_nil⟩
  | cons ctx rest ih =>
    refine (ensures_items ctx fields h).bind fun first hfirst => ih.bind fun more hmore => ?_
    refine ensures_pure ⟨hfirst.1.append hmore.1, fun e he => ?_⟩
    rcases List.mem_cons.mp he with rfl | he
    · exact (simple_projection _ hfirst.2).calls
    · exact hmore.2 e he

end Changes

theorem ensures_operationClauses {ctx : Context} {o : Operation}
    (h : ∀ part ∈ o.parts, Behind part) : Ensures SteadyBody (operationClauses ctx o) := by
  cases o with
  | lookup l => exact (ensures_lookupClauses ctx l h).mono fun _ hcs => hcs.1
  | aggregate a => exact (ensures_aggregateClauses a).mono fun _ hcs => hcs.1.body
  | create c =>
    refine (ensures_newNodes ctx c.entity true c.nodes).bind fun made hmade => ?_
    refine (ensures_projections (fun part hpart =>
      h part (List.mem_append_right _ hpart)) _).bind fun shown hshown => ensures_pure ?_
    have hlist : (Expr.list shown.2).calls = [] := callsOf_eq_nil hshown.2
    exact ((hmade.steady.append hshown.1.steady).append (steady_give hlist _)).body
  | update u =>
    have hfields : ∀ part ∈ Field.partsOf u.fields, Behind part := fun part hpart =>
      h part (List.mem_cons_of_mem _ (List.mem_append_right _ hpart))
    refine (ensures_filteredMatch _ u.filter).bind fun found hfound => ?_
    refine (ensures_validated u.before).bind fun first hfirst => ?_
    refine (ensures_assigned ctx.subject u.assignments).bind fun own hown => ?_
    have hbefore := (hfound.append hfirst.1).append hown.1
    refine (ensures_after ctx hbefore u.nested).bind fun written hwritten => ?_
    refine (ensures_validated u.after).bind fun last hlast => ?_
    refine (ensures_items ctx u.fields hfields).bind fun shown hshown => ensures_pure ?_
    have hchecked := steady_andThen hwritten.1 hlast.1
    refine ((steady_andThen hchecked hshown.1.steady).append (steady_give ?_ _)).body
    have hprojection := simple_projection ctx.subject hshown.2
    rw [Expr.calls, Expr.callsOf, Expr.callsOf, Expr.calls, hprojection.calls, List.append_nil]
  | delete d =>
    refine (ensures_filteredMatch _ d.filter).bind fun found hfound => ?_
    refine (ensures_validated d.before).bind fun first hfirst => ?_
    refine (ensures_after ctx (hfound.append hfirst.1) d.nested).bind fun clauses hclauses => ?_
    exact ensures_pure (steady_andThen hclauses.1 (steady_of_callless rfl)).body

end GraphSelection.Program

namespace GraphSelection

open Cypher Plan Resolve Program

theorem behind_of_fits {good : Attribute → Prop} {part : Part} (h : part.Fits good) :
    Behind part := by
  unfold Behind
  split
  · exact h
  · trivial

/-- The lookups among the fields of a resolved plan lie behind a relationship. -/
theorem behind_of_operation {s : Setup} {r : Request} {o : Operation}
    (h : s.operation r = .ok o) : ∀ part ∈ o.parts, Behind part := fun part hpart =>
  behind_of_fits (Setup.guards_fits (Setup.operation_guards h part hpart))

/-- Whatever is compiled, every call of the program leaves exactly one row of every row that enters
it, at whatever depth the call stands and whatever the graph holds. Not counted as a call of its own
is the one at the head of a body from which the rows of that body come, by merging the branches of a
composite or by running a statement of the schema. -/
theorem calls_keep_rows (s : Setup) (r : Request) (p : Compiled) (h : compile s r = .ok p) :
    ∀ body ∈ Clause.callsWithin p.clauses, ∀ m, Clause.RowsAll body 1 m ↔ m = 1 := by
  obtain ⟨o, t, hplan, hprogram, _, _⟩ := Scoping.compile_ok h
  have hbehind := behind_of_operation (Scoping.plan_ok hplan)
  have hsteady : Ensures SteadyBody (programOf s.terms o) :=
    ensures_skip _ fun _ => ensures_operationClauses hbehind
  exact hsteady.run {} p.clauses t hprogram

theorem famous_keeps_rows :
    ∃ p, compile Stage.setup Stage.famous = .ok p ∧ Clause.callsWithin p.clauses ≠ [] ∧
      ∀ body ∈ Clause.callsWithin p.clauses, OneRow body := by
  have hsome : (compile Stage.setup Stage.famous).toOption.any
      (fun p => !(Clause.callsWithin p.clauses).isEmpty) = true := by decide +kernel
  obtain ⟨p, h, hcalls⟩ := exists_of_any hsome
  have hne : Clause.callsWithin p.clauses ≠ [] := by simpa using hcalls
  exact ⟨p, h, hne, calls_keep_rows Stage.setup Stage.famous p h⟩

end GraphSelection
